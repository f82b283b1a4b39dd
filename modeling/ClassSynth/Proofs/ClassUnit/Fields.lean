import ClassSynth.Proofs.Body.Occurrences
import ClassSynth.Proofs.ClassUnit.Operations
import ClassSynth.Proofs.Descriptor

/-!
# Declared fields

Operations never take a field away: what a class declares it declares after every operation
(`Declares.of_step`), and operations with a body leave the fields as they are. A class that `Agrees`
with demands has for each of its fields the descriptor that is demanded.
-/

namespace ClassSynth

/-- A field of the name and the descriptor is declared. -/
def ClassFile.Declares (file : ClassFile) (name descriptor : String) : Prop :=
  ∃ m ∈ file.fields, file.pool.utf8 m.name = .ok name ∧ file.pool.utf8 m.descriptor = .ok descriptor

/-- The fields of objects that the body of an operation reads or sets. -/
def ClassOp.fieldRefs : ClassOp → List FieldRef
  | addMethod _ _ _ _ body | insertBefore _ _ body | replaceReturns _ _ body =>
    Stmt.fieldRefsList body
  | _ => []

namespace ClassUnit

variable {c c' : ClassUnit} {name descriptor : String}

/-! ## Operations -/

/-- A successful operation keeps the declared fields. -/
theorem declares_of_step {op : ClassOp} (h : c.runEdit op.step = (.ok (), c'))
    (hdeclares : c.file.Declares name descriptor) : c'.file.Declares name descriptor := by
  obtain ⟨c₁, file, hc, rfl, hchange⟩ := of_step h
  obtain ⟨m, hm, hname, hdescriptor⟩ := hdeclares
  have hkept : m ∈ file.fields := by
    cases hchange with
    | field => exact List.mem_append_left _ (hc.fields ▸ hm)
    | _ => exact hc.fields ▸ hm
  have hpool : c.file.pool.Grows file.pool := hchange.pool ▸ hc.pool
  exact ⟨m, hkept, hpool.utf8 hname, hpool.utf8 hdescriptor⟩

/-- The later class has the supertypes of the earlier one, and knows its constants. -/
structure SameSupertypes (c c' : ClassUnit) : Prop where
  superClass : c'.file.superClass = c.file.superClass
  interfaces : c'.file.interfaces = c.file.interfaces
  pool : c.file.pool.Grows c'.file.pool

/-- The later class has the fields of the earlier one, too. -/
structure SameFields (c c' : ClassUnit) : Prop extends SameSupertypes c c' where
  name : c'.name = c.name
  fields : c'.file.fields = c.file.fields

instance : IsPreorder ClassUnit SameFields where
  refl _ := ⟨⟨rfl, rfl, ConstantPool.Grows.refl _⟩, rfl, rfl⟩
  trans _ _ _ hab hbc :=
    ⟨⟨hbc.superClass.trans hab.superClass, hbc.interfaces.trans hab.interfaces,
      hab.pool.trans hbc.pool⟩, hbc.name.trans hab.name, hbc.fields.trans hab.fields⟩

/-- Supertypes that can be read are read the same in the later class. -/
theorem SameSupertypes.directSupertypes (h : SameSupertypes c c') {ts : List TypeName}
    (hts : c.directSupertypes = .ok ts) : c'.directSupertypes = .ok ts := by
  obtain ⟨superclass, hsuper, hrest⟩ := Checked.bind_eq_ok.mp hts
  obtain ⟨interfaces, hinterfaces, hts⟩ := Checked.bind_eq_ok.mp hrest
  obtain ⟨superName, hsuperName, hsuper⟩ := Checked.bind_eq_ok.mp hsuper
  obtain ⟨names, hnames, hinterfaces⟩ := Checked.bind_eq_ok.mp hinterfaces
  have hsuperName' : c'.file.superName? = .ok superName := by
    have hfound := Checked.mapError_eq_ok.mp hsuperName
    unfold ClassFile.superName? at hfound ⊢
    rw [h.superClass]
    split_ifs at hfound ⊢
    · exact hfound
    · obtain ⟨name, hname, hfound⟩ := Checked.map_eq_ok.mp hfound
      exact Checked.map_eq_ok.mpr ⟨name, h.pool.className hname, hfound⟩
  have hnames' : c'.file.interfaceNames = .ok names := by
    have hfound := Checked.mapM_eq_ok.mp (Checked.mapError_eq_ok.mp hnames)
    unfold ClassFile.interfaceNames
    rw [h.interfaces]
    exact Checked.mapM_eq_ok.mpr (hfound.imp fun _ _ => h.pool.className)
  refine Checked.bind_eq_ok.mpr ⟨superclass, ?_, Checked.bind_eq_ok.mpr ⟨interfaces, ?_, hts⟩⟩
  · exact Checked.bind_eq_ok.mpr ⟨superName, Checked.mapError_eq_ok.mpr hsuperName', hsuper⟩
  · exact Checked.bind_eq_ok.mpr ⟨names, Checked.mapError_eq_ok.mpr hnames', hinterfaces⟩

theorem Enlarged.sameFields (h : Enlarged c c') : SameFields c c' where
  superClass := by rw [h.rest]
  interfaces := by rw [h.rest]
  pool := h.pool
  name := by rw [h.rest]
  fields := h.fields

theorem keepsFields {α : Type} {step : Edit α} (h : Keeps Enlarged step) : Keeps SameFields step :=
  h.mono fun _ _ => Enlarged.sameFields

theorem keepsFields_addMethod (flags : UInt16) (name : String) (params : List TypeName)
    (ret : TypeName) (body : List Stmt) :
    Keeps SameFields (addMethod flags name params ret body) := by
  have hadd : ∀ owner : TypeName, Keeps SameFields (do
      let ctx := methodContext owner flags name params ret
      let emitted ← onPool (emitMethod ctx body)
      let attributes ← frameAttributes ctx emitted.frames
      let method ← memberInfo flags name (methodDescriptor params ret)
      let method ← addConstants <| method.setCode {
        maxStack := emitted.maxStack, maxLocals := emitted.maxLocals, code := emitted.code
        attributes }
      modifyFile fun f => { f with methods := f.methods ++ [method] }) := fun owner =>
    (keepsFields (keeps_onPool (grows_emitMethod _ body))).bind fun _ =>
      (keepsFields (keeps_frameAttributes _ _)).bind fun _ =>
      (keepsFields (keeps_memberInfo flags name _)).bind fun _ =>
      (keepsFields (keeps_addConstants (MemberInfo.adds_setCode _ _))).bind fun _ =>
      .modified fun _ => ⟨⟨rfl, rfl, ConstantPool.Grows.refl _⟩, rfl, rfl⟩
  exact Keeps.get.bind fun c =>
    .ite ((keepsFields (keeps_duplicate _ _)).bind fun _ => hadd c.name) (hadd c.name)

theorem keepsFields_patch {m : ExistingMethod}
    {emit : ConstantPool → Except Error EmittedCode × ConstantPool}
    {edit : Fragment → List VerificationType → Bool → IndexedBody.Editing CodeAttribute}
    (hemit : ∀ pool : ConstantPool, pool.Grows (emit pool).2)
    (hedit : ∀ fragment entry withFrames,
      Keeps ConstantPool.Grows (edit fragment entry withFrames)) :
    Keeps SameFields (patch m emit edit) :=
  (keepsFields (keeps_onPool hemit)).bind fun _ => Keeps.lift.bind fun _ =>
    (keepsFields (keeps_addConstants m.context.adds_entryLocals)).bind fun _ =>
    Keeps.get.bind fun _ => (keepsFields (keeps_editCode (hedit _ _ _))).bind fun _ =>
    (keepsFields (keeps_addConstants (m.info.adds_setCode _))).bind fun _ =>
    .modified fun _ => ⟨⟨rfl, rfl, ConstantPool.Grows.refl _⟩, rfl, rfl⟩

theorem keepsFields_insertBefore (name descriptor : String) (body : List Stmt) :
    Keeps SameFields (insertBefore name descriptor body) :=
  (keepsFields (keeps_existing name descriptor)).bind fun m =>
    keepsFields_patch (grows_emitFragment m.context body) fun _ _ _ => m.code.keeps_edit _ _ _

theorem keepsFields_replaceReturns (name descriptor : String) (body : List Stmt) :
    Keeps SameFields (replaceReturns name descriptor body) := by
  refine (keepsFields (keeps_existing name descriptor)).bind fun m => ?_
  have hpatch : Keeps SameFields (patch m (emitMethod m.context body)
      (m.code.replaceReturns m.context.ret.returnOpcode)) :=
    keepsFields_patch (grows_emitMethod m.context body) fun _ _ _ => m.code.keeps_edit _ _ _
  exact .ite (Keeps.throw.bind fun _ => .ite (Keeps.throw.bind fun _ => hpatch) hpatch)
    (.ite (Keeps.throw.bind fun _ => hpatch) hpatch)

/-! ## Demands -/

/-- Each field of the class has a name and a descriptor. What is read of the descriptor is written
the same, and it is the descriptor of every type that is demanded for the name. -/
def Agrees (c : ClassUnit) (demands : List (String × TypeName)) : Prop :=
  ∀ m ∈ c.file.fields, ∃ name descriptor,
    c.file.pool.utf8 m.name = .ok name ∧ c.file.pool.utf8 m.descriptor = .ok descriptor ∧
    (∀ t, parseFieldDescriptor descriptor = .ok t → t.descriptor = descriptor) ∧
    ∀ t, (name, t) ∈ demands → descriptor = t.descriptor

theorem exists_of_hasField (h : c.hasField name = true) :
    ∃ m ∈ c.file.fields, c.file.pool.utf8 m.name = .ok name := by
  rw [hasField, ClassFile.fieldPosition?, List.findIdx?_isSome, List.any_eq_true] at h
  obtain ⟨m, hm, hname⟩ := h
  exact ⟨m, hm, ConstantPool.utf8_eq_ok.mpr (hasText_iff.mp hname)⟩

theorem hasField_of_mem {m : MemberInfo} (hm : m ∈ c.file.fields)
    (hname : c.file.pool.utf8 m.name = .ok name) : c.hasField name = true := by
  rw [hasField, ClassFile.fieldPosition?, List.findIdx?_isSome, List.any_eq_true]
  exact ⟨m, hm, hasText_iff.mpr (ConstantPool.utf8_eq_ok.mp hname)⟩

theorem SameFields.hasField (h : SameFields c c') (hfield : c.hasField name = true) :
    c'.hasField name = true := by
  obtain ⟨m, hm, hname⟩ := exists_of_hasField hfield
  exact hasField_of_mem (h.fields ▸ hm) (h.pool.utf8 hname)

/-- A field that is there is shown, if the fields can be read. -/
theorem exists_field?_of_hasField (hfield : c.hasField name = true) {found : Option FieldSig}
    (hfound : c.field? name = .ok found) : ∃ sig, found = some sig := by
  obtain ⟨m, hm, hname⟩ := exists_of_hasField hfield
  obtain ⟨sigs, hsigs, hfind⟩ := Checked.bind_eq_ok.mp hfound
  obtain rfl := Except.ok.inj hfind
  obtain ⟨sig, hmem, hsig⟩ :=
    Checked.exists_of_mem_left (Checked.mapM_eq_ok.mp (Checked.mapError_eq_ok.mp hsigs)) hm
  obtain ⟨name', hname', hsig⟩ := Checked.bind_eq_ok.mp hsig
  obtain ⟨descriptor, _, hsig⟩ := Checked.bind_eq_ok.mp hsig
  obtain ⟨type, _, hsig⟩ := Checked.bind_eq_ok.mp hsig
  obtain rfl := Except.ok.inj hsig
  obtain rfl := Except.ok.inj (hname.symm.trans hname')
  exact Option.isSome_iff_exists.mp (List.find?_isSome.mpr ⟨_, hmem, by simp⟩)

namespace Agrees

variable {demands : List (String × TypeName)}

theorem sameFields (h : c.Agrees demands) (hto : SameFields c c') : c'.Agrees demands := by
  intro m hm
  obtain ⟨name, descriptor, hname, hdescriptor, hrest⟩ := h m (hto.fields ▸ hm)
  exact ⟨name, descriptor, hto.pool.utf8 hname, hto.pool.utf8 hdescriptor, hrest⟩

/-- A field that is there has the type that is demanded. -/
theorem declares (h : c.Agrees demands) (hfield : c.hasField name = true) {t : TypeName}
    (ht : (name, t) ∈ demands) : c.file.Declares name t.descriptor := by
  obtain ⟨m, hm, hname⟩ := exists_of_hasField hfield
  obtain ⟨name', descriptor, hname', hdescriptor, _, hdemand⟩ := h m hm
  obtain rfl := Except.ok.inj (hname.symm.trans hname')
  exact ⟨m, hm, hname, hdemand t ht ▸ hdescriptor⟩

/-- A field that the class shows is declared with the descriptor of its type. -/
theorem declares_of_field? (h : c.Agrees demands) {sig : FieldSig}
    (hfield : c.field? name = .ok (some sig)) : c.file.Declares name sig.type.descriptor := by
  obtain ⟨sigs, hsigs, hfind⟩ := Checked.bind_eq_ok.mp hfield
  have hfind := Except.ok.inj hfind
  have hmem := List.mem_of_find?_eq_some hfind
  have hname : sig.name = name := by simpa using List.find?_some hfind
  obtain ⟨m, hm, hsig⟩ :=
    Checked.exists_of_mem_right (Checked.mapM_eq_ok.mp (Checked.mapError_eq_ok.mp hsigs)) hmem
  obtain ⟨name', hname', hsig⟩ := Checked.bind_eq_ok.mp hsig
  obtain ⟨descriptor, hdescriptor, hsig⟩ := Checked.bind_eq_ok.mp hsig
  obtain ⟨type, htype, hsig⟩ := Checked.bind_eq_ok.mp hsig
  obtain rfl := Except.ok.inj hsig
  obtain ⟨_, descriptor', _, hdescriptor', hread, _⟩ := h m hm
  obtain rfl := Except.ok.inj (hdescriptor.symm.trans hdescriptor')
  refine ⟨m, hm, ?_, ?_⟩
  · rw [hname', ← hname]
  · rw [hdescriptor, hread type htype]

/-- A new field has the type that is demanded. -/
theorem addField (h : c.Agrees demands) {flags : UInt16} {t : TypeName}
    (hrun : c.runEdit (ClassUnit.addField flags name t) = (.ok (), c'))
    (herased : t.isErased = true)
    (hdemand : ∀ u, (name, u) ∈ demands → t.descriptor = u.descriptor)
    (hindexable : c'.file.pool.Indexable) : c'.Agrees demands ∧ c'.hasField name = true := by
  obtain ⟨c₁, m, hc, rfl, -, hkey⟩ := of_addField hrun
  have hto := hc.sameFields
  obtain ⟨hname, hdescriptor⟩ := hkey hindexable
  refine ⟨?_, hasField_of_mem (m := m) (List.mem_append_right _ List.mem_cons_self) hname⟩
  intro m' hm'
  rcases List.mem_append.mp hm' with hold | hnew
  · exact h.sameFields hto m' hold
  · obtain rfl := List.mem_singleton.mp hnew
    exact ⟨name, t.descriptor, hname, hdescriptor,
      fun _ => TypeName.descriptor_of_parse herased, hdemand⟩

end Agrees

end ClassUnit

/-! ## Members that stay

Operations add members and change the code of methods, but they never take a member away: what a
class has it has after every operation (`KeepsMembers.of_step`). A new member can be found from then
on, as long as the constants have indices in 16 bits.
-/

/-- The positions of name and descriptor among the constants. -/
def MemberInfo.signature (m : MemberInfo) : UInt16 × UInt16 := (m.name, m.descriptor)

namespace ClassUnit

variable {c c' : ClassUnit} {name descriptor : String}

/-- A method is there if the constants know the name and the descriptor of one. -/
theorem hasMethod_iff : c.hasMethod name descriptor = true ↔
    ∃ m ∈ c.file.methods, c.file.pool.utf8 m.name = .ok name ∧
      c.file.pool.utf8 m.descriptor = .ok descriptor := by
  rw [hasMethod, ClassFile.methodPosition?, List.findIdx?_isSome, List.any_eq_true]
  refine exists_congr fun m => and_congr_right fun _ => ?_
  rw [ClassFile.isMember, Bool.and_eq_true, hasText_iff, hasText_iff, ConstantPool.utf8_eq_ok,
    ConstantPool.utf8_eq_ok]

/-- The members of the earlier class are the first ones of the later class. The code of methods may
differ. -/
structure KeepsMembers (c c' : ClassUnit) : Prop where
  name : c'.name = c.name
  pool : c.file.pool.Grows c'.file.pool
  fields : c.file.fields <+: c'.file.fields
  methods : c.file.methods.map MemberInfo.signature <+: c'.file.methods.map MemberInfo.signature

instance : IsPreorder ClassUnit KeepsMembers where
  refl _ := ⟨rfl, ConstantPool.Grows.refl _, List.prefix_rfl, List.prefix_rfl⟩
  trans _ _ _ hab hbc :=
    ⟨hbc.name.trans hab.name, hab.pool.trans hbc.pool, hab.fields.trans hbc.fields,
      hab.methods.trans hbc.methods⟩

namespace KeepsMembers

/-- A successful operation keeps all members. -/
theorem of_step {op : ClassOp} (h : c.runEdit op.step = (.ok (), c')) : KeepsMembers c c' := by
  obtain ⟨c₁, file, hc, rfl, hchange⟩ := ClassUnit.of_step h
  have hname : c₁.name = c.name := by rw [hc.rest]
  have hpool : c.file.pool.Grows file.pool := hchange.pool ▸ hc.pool
  have hfields : c.file.fields <+: c₁.file.fields := hc.fields ▸ List.prefix_rfl
  have hmethods : c.file.methods <+: c₁.file.methods := hc.methods ▸ List.prefix_rfl
  cases hchange with
  | header => exact ⟨hname, hpool, hfields, hmethods.map _⟩
  | field m => exact ⟨hname, hpool, hfields.trans (List.prefix_append _ _), hmethods.map _⟩
  | method m => exact ⟨hname, hpool, hfields, (hmethods.trans (List.prefix_append _ _)).map _⟩
  | code m position info _ _ hmethod =>
    -- The edited method has the name and the descriptor that it had.
    rw [← hc.methods] at hmethod
    have hset : (c₁.file.methods.set position { m with
        attributes :=
          MemberInfo.replaceInfo (MemberInfo.isCode c.file.pool) info m.attributes }).map
        MemberInfo.signature = c₁.file.methods.map MemberInfo.signature :=
      map_set_of_eq (a := m) hmethod rfl
    exact ⟨hname, hpool, hfields, (hmethods.map _).trans (hset ▸ List.prefix_rfl)⟩

theorem hasField (h : KeepsMembers c c') (hfield : c.hasField name = true) :
    c'.hasField name = true := by
  obtain ⟨m, hm, hname⟩ := exists_of_hasField hfield
  exact hasField_of_mem (h.fields.subset hm) (h.pool.utf8 hname)

theorem hasMethod (h : KeepsMembers c c') (hmethod : c.hasMethod name descriptor = true) :
    c'.hasMethod name descriptor = true := by
  obtain ⟨m, hm, hname, hdescriptor⟩ := hasMethod_iff.mp hmethod
  obtain ⟨m', hm', hsignature⟩ := List.mem_map.mp (h.methods.subset (List.mem_map_of_mem hm))
  obtain ⟨hname', hdescriptor'⟩ := Prod.mk.inj hsignature
  exact hasMethod_iff.mpr
    ⟨m', hm', hname' ▸ h.pool.utf8 hname, hdescriptor' ▸ h.pool.utf8 hdescriptor⟩

end KeepsMembers

/-- A class with a new field has it, and all else that it had. -/
theorem keepsMembers_addField {flags : UInt16} {t : TypeName}
    (h : c.runEdit (addField flags name t) = (.ok (), c')) :
    KeepsMembers c c' ∧ (c'.file.pool.Indexable → c'.hasField name = true) := by
  have hstep : c.runEdit (ClassOp.addField flags name t).step = (.ok (), c') := h
  refine ⟨.of_step hstep, fun hindexable => ?_⟩
  obtain ⟨c₁, m, -, rfl, -, hkey⟩ := of_addField h
  exact hasField_of_mem (m := m) (List.mem_append_right _ List.mem_cons_self) (hkey hindexable).1

/-- A class with a new method has it, and all else that it had. -/
theorem keepsMembers_addMethod {flags : UInt16} {params : List TypeName} {ret : TypeName}
    {body : List Stmt} (h : c.runEdit (addMethod flags name params ret body) = (.ok (), c')) :
    KeepsMembers c c' ∧
      (c'.file.pool.Indexable → c'.hasMethod name (methodDescriptor params ret) = true) := by
  have hstep : c.runEdit (ClassOp.addMethod flags name params ret body).step = (.ok (), c') := h
  refine ⟨.of_step hstep, fun hindexable => ?_⟩
  obtain ⟨c₁, m, -, rfl, -, hkey⟩ := of_addMethod h
  exact hasMethod_iff.mpr ⟨m, List.mem_append_right _ List.mem_cons_self, hkey hindexable⟩

/-- A class that can be written has an index for each constant. -/
theorem indexable_of_toBytes {bytes : Bytes} (h : c.toBytes = .ok bytes) :
    c.file.pool.Indexable := by
  obtain ⟨pool, hpool, -⟩ := Checked.bind_eq_ok.mp (Checked.mapError_eq_ok.mp h)
  unfold ConstantPool.toBytes at hpool
  split_ifs at hpool with hcount
  rw [ConstantPool.count] at hcount
  exact Nat.le_of_succ_le (Nat.le_of_not_gt hcount)

theorem exists_toBytes (hcount : c.file.pool.count ≤ 65535)
    (hattributes : c.file.attributes.length ≤ 65535) : ∃ bytes, c.toBytes = .ok bytes := by
  have hfile : ∃ bytes, c.file.toBytes = .ok bytes := by
    rw [ClassFile.toBytes, ConstantPool.toBytes, if_neg (Nat.not_lt_of_le hcount)]
    exact ⟨_, if_neg (Nat.not_lt_of_le hattributes)⟩
  obtain ⟨bytes, hbytes⟩ := hfile
  exact ⟨bytes, Checked.mapError_eq_ok.mpr hbytes⟩

end ClassUnit

end ClassSynth
