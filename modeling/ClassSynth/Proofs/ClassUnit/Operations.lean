import ClassSynth.Proofs.ClassUnit.Enlarging

/-!
# Sequences of operations on a class
-/

namespace ClassSynth

/-- An operation on a class, with its arguments. -/
inductive ClassOp
  | setSuperclass (t : TypeName)
  | clearSuperclass
  | addInterface (t : TypeName)
  | addField (flags : UInt16) (name : String) (t : TypeName)
  | declareMethod (flags : UInt16) (name : String) (params : List TypeName) (ret : TypeName)
  | addMethod (flags : UInt16) (name : String) (params : List TypeName) (ret : TypeName)
      (body : List Stmt)
  | insertBefore (name descriptor : String) (body : List Stmt)
  | replaceReturns (name descriptor : String) (body : List Stmt)

namespace ClassOp

open ClassUnit

/-- What the operation does. -/
def step : ClassOp → Edit Unit
  | setSuperclass t => ClassUnit.setSuperclass t
  | clearSuperclass => ClassUnit.clearSuperclass
  | addInterface t => ClassUnit.addInterface t
  | addField flags name t => ClassUnit.addField flags name t
  | declareMethod flags name params ret => ClassUnit.declareMethod flags name params ret
  | addMethod flags name params ret body => ClassUnit.addMethod flags name params ret body
  | insertBefore name descriptor body => ClassUnit.insertBefore name descriptor body
  | replaceReturns name descriptor body => ClassUnit.replaceReturns name descriptor body

/-- The method whose code the operation changes, by name and descriptor. -/
def target? : ClassOp → Option (String × String)
  | insertBefore name descriptor _ => some (name, descriptor)
  | replaceReturns name descriptor _ => some (name, descriptor)
  | _ => none

end ClassOp

namespace ClassUnit

/-! ## Failures -/

theorem failsWithin_putCode (m : ExistingMethod) (code : CodeAttribute) :
    FailsWithin Enlarged (putCode m code) :=
  (keeps_addConstants (m.info.adds_setCode code)).bind_failsWithin fun _ => .modified

/-- Emits code, edits the code of a method with it, and puts the edited code into the method. -/
def patch (m : ExistingMethod) (emit : ConstantPool → Except Error EmittedCode × ConstantPool)
    (edit : Fragment → List VerificationType → Bool → IndexedBody.Editing CodeAttribute) :
    Edit Unit := do
  let emitted ← onPool emit
  let fragment ← liftFormat (Fragment.ofEmitted emitted)
  let entry ← addConstants m.context.entryLocals
  putCode m (← editCode (edit fragment entry (← get).usesFrames))

section Patch

variable {m : ExistingMethod} {emit : ConstantPool → Except Error EmittedCode × ConstantPool}
  {edit : Fragment → List VerificationType → Bool → IndexedBody.Editing CodeAttribute}
  (hemit : ∀ pool : ConstantPool, pool.Grows (emit pool).2)
  (hedit : ∀ fragment entry withFrames, Keeps ConstantPool.Grows (edit fragment entry withFrames))
include hemit hedit

theorem failsWithin_patch : FailsWithin Enlarged (patch m emit edit) :=
  (keeps_onPool hemit).bind_failsWithin fun _ => Keeps.lift.bind_failsWithin fun _ =>
    (keeps_addConstants m.context.adds_entryLocals).bind_failsWithin fun _ =>
    Keeps.get.bind_failsWithin fun _ => (keeps_editCode (hedit _ _ _)).bind_failsWithin fun _ =>
    failsWithin_putCode m _

/-- What edited code is made of. -/
theorem code_of_patch {c c' : ClassUnit} (h : (patch m emit edit).run.run c = (.ok (), c')) :
    ∃ emitted fragment entry withFrames pool c₁ code, (emit c.file.pool).1 = .ok emitted ∧
      Fragment.ofEmitted emitted = .ok fragment ∧ (emit c.file.pool).2.Grows pool ∧
      (edit fragment entry withFrames).run.run pool = (.ok code, c₁.file.pool) ∧ Enlarged c c₁ ∧
      (putCode m code).run.run c₁ = (.ok (), c') := by
  obtain ⟨emitted, c₁, hemitted, hfragment⟩ := of_run_bind_ok h
  obtain ⟨fragment, _, hlift, hentry⟩ := of_run_bind_ok hfragment
  obtain ⟨hmade, rfl⟩ := of_run_lift_ok hlift
  obtain ⟨entry, c₂, hlocals, hget⟩ := of_run_bind_ok hentry
  obtain ⟨_, _, hstate, hcode⟩ := of_run_bind_ok hget
  obtain ⟨rfl, rfl⟩ := of_run_get_ok hstate
  obtain ⟨code, c₃, hedited, hput⟩ := of_run_bind_ok hcode
  have hto₁ := (keeps_onPool hemit).of_run hemitted
  have hto₂ := (keeps_addConstants m.context.adds_entryLocals).of_run hlocals
  have hto₃ := (keeps_editCode (hedit _ _ _)).of_run hedited
  have hrun := of_onPool hemitted
  refine ⟨emitted, fragment, entry, _, c₂.file.pool, c₃, code, congrArg Prod.fst hrun,
    Checked.mapError_eq_ok.mp hmade, ?_, of_editCode hedited,
    trans_of Enlarged (trans_of Enlarged hto₁ hto₂) hto₃, hput⟩
  rw [hrun]
  exact hto₂.pool

/-- The code that is put into a method at last finds it as it was. -/
theorem of_patch {c c' : ClassUnit} (h : (patch m emit edit).run.run c = (.ok (), c')) :
    ∃ c₁ code, Enlarged c c₁ ∧ (putCode m code).run.run c₁ = (.ok (), c') := by
  obtain ⟨_, _, _, _, _, c₁, code, -, -, -, -, hto, hput⟩ := code_of_patch hemit hedit h
  exact ⟨c₁, code, hto, hput⟩

end Patch

theorem insertBefore_eq (name descriptor : String) (body : List Stmt) :
    insertBefore name descriptor body = (do
      let m ← existing name descriptor
      patch m (emitFragment m.context body) m.code.insertPrologue) :=
  rfl

theorem failsWithin_insertBefore (name descriptor : String) (body : List Stmt) :
    FailsWithin Enlarged (insertBefore name descriptor body) :=
  (keeps_existing name descriptor).bind_failsWithin fun m =>
    failsWithin_patch (grows_emitFragment m.context body) fun _ _ _ => m.code.keeps_edit _ _ _

theorem replaceReturns_eq (name descriptor : String) (body : List Stmt) :
    replaceReturns name descriptor body = (do
      let m ← existing name descriptor
      if m.context.ret.isVoid then throw (.codeGen (.replacesVoidReturns name))
      if m.context.ret.isWide then throw (.codeGen (.replacesWideReturns name))
      patch m (emitMethod m.context body)
        (m.code.replaceReturns m.context.ret.returnOpcode)) :=
  rfl

theorem failsWithin_replaceReturns (name descriptor : String) (body : List Stmt) :
    FailsWithin Enlarged (replaceReturns name descriptor body) := by
  refine (keeps_existing name descriptor).bind_failsWithin fun m => ?_
  have hpatch : FailsWithin Enlarged (patch m (emitMethod m.context body)
      (m.code.replaceReturns m.context.ret.returnOpcode)) :=
    failsWithin_patch (grows_emitMethod m.context body) fun _ _ _ => m.code.keeps_edit _ _ _
  exact .guard .throw (.guard .throw hpatch)

theorem failsWithin_addMethod (flags : UInt16) (name : String) (params : List TypeName)
    (ret : TypeName) (body : List Stmt) :
    FailsWithin Enlarged (addMethod flags name params ret body) := by
  refine Keeps.get.bind_failsWithin fun c => ?_
  have hadd : FailsWithin Enlarged (do
      let ctx := methodContext c.name flags name params ret
      let emitted ← onPool (emitMethod ctx body)
      let attributes ← frameAttributes ctx emitted.frames
      let method ← memberInfo flags name (methodDescriptor params ret)
      let method ← addConstants <| method.setCode {
        maxStack := emitted.maxStack, maxLocals := emitted.maxLocals, code := emitted.code
        attributes }
      modifyFile fun f => { f with methods := f.methods ++ [method] }) :=
    (keeps_onPool (grows_emitMethod _ body)).bind_failsWithin fun _ =>
      (keeps_frameAttributes _ _).bind_failsWithin fun _ =>
      (keeps_memberInfo flags name _).bind_failsWithin fun _ =>
      (keeps_addConstants (MemberInfo.adds_setCode _ _)).bind_failsWithin fun _ => .modified
  exact .guard (keeps_duplicate _ _) hadd

theorem failsWithin_step (op : ClassOp) : FailsWithin Enlarged op.step := by
  have hclass : ∀ t : TypeName, Keeps Enlarged
      (addConstants (ConstantPool.addClass t.internalName)) :=
    fun t => keeps_addConstants (ConstantPool.adds_class _)
  cases op with
  | setSuperclass t => exact (hclass t).bind_failsWithin fun _ => .modified
  | clearSuperclass => exact .modified
  | addInterface t => exact (hclass t).bind_failsWithin fun _ => .modified
  | addField flags name t =>
    have hadd : FailsWithin Enlarged (do
        let field ← memberInfo flags name t.descriptor
        modifyFile fun f => { f with fields := f.fields ++ [field] }) :=
      (keeps_memberInfo flags name _).bind_failsWithin fun _ => .modified
    exact Keeps.get.bind_failsWithin fun _ => .guard (keeps_duplicate _ _) hadd
  | declareMethod flags name params ret =>
    have hadd : FailsWithin Enlarged (do
        let method ← memberInfo flags name (methodDescriptor params ret)
        modifyFile fun f => { f with methods := f.methods ++ [method] }) :=
      (keeps_memberInfo flags name _).bind_failsWithin fun _ => .modified
    exact Keeps.get.bind_failsWithin fun _ => .guard (keeps_duplicate _ _) hadd
  | addMethod flags name params ret body => exact failsWithin_addMethod flags name params ret body
  | insertBefore name descriptor body => exact failsWithin_insertBefore name descriptor body
  | replaceReturns name descriptor body => exact failsWithin_replaceReturns name descriptor body

/-! ## Code in growing pools -/

theorem hasText_iff {p : ConstantPool} {index : UInt16} {text : String} :
    MemberInfo.hasText p index text = true ↔ p.get? index = some (.utf8 text) := by
  rw [← ConstantPool.utf8_eq_ok]
  unfold MemberInfo.hasText
  split
  · next found hfound => simp [hfound]
  · next hfound => simp [hfound]

/-- Once the pool holds the name of code attributes, no other attribute becomes one. -/
theorem isCode_grows {p q : ConstantPool} (h : p.Grows q) {attributes : List Attribute}
    (hany : attributes.any (MemberInfo.isCode p) = true) :
    MemberInfo.isCode q = MemberInfo.isCode p := by
  have hmem : some (Constant.utf8 AttributeName.code.text) ∈ p.slots.toList := by
    obtain ⟨a, _, ha⟩ := List.any_eq_true.mp hany
    exact ConstantPool.mem_of_get? (hasText_iff.mp ha)
  funext a
  cases hp : MemberInfo.isCode p a with
  | true => exact hasText_iff.mpr (h.get? (hasText_iff.mp hp))
  | false =>
    refine Bool.eq_false_iff.mpr fun hq => ?_
    refine h.not_mem_of_get? (hasText_iff.mp hq) (fun hget => ?_) hmem
    rw [MemberInfo.isCode, hasText_iff.mpr hget] at hp
    cases hp

/-! ## Successes -/

/-- A method whose code is to be edited is the first of its name and descriptor, and it has code. -/
theorem of_existing {name descriptor : String} {c c' : ClassUnit} {m : ExistingMethod}
    (h : (existing name descriptor).run.run c = (.ok m, c')) :
    c' = c ∧ c.file.methodPosition? name descriptor = some m.position ∧
      c.file.methods[m.position]? = some m.info ∧
      m.info.attributes.any (MemberInfo.isCode c.file.pool) = true ∧
      ∃ ret, parseMethodDescriptor descriptor = .ok (m.context.params, ret) := by
  obtain ⟨_, _, hget, hcheck⟩ := of_run_bind_ok h
  obtain ⟨rfl, rfl⟩ := of_run_get_ok hget
  obtain ⟨_, _, hcompiled, hmatch⟩ := of_run_bind_ok hcheck
  obtain ⟨-, rfl⟩ := of_run_lift_ok hcompiled
  split at hmatch
  · exact absurd hmatch not_run_throw_ok
  next info position hfind =>
  obtain ⟨code?, _, hcode, hmatch⟩ := of_run_bind_ok hmatch
  obtain ⟨hfound, rfl⟩ := of_run_lift_ok hcode
  split at hmatch
  · exact absurd hmatch not_run_throw_ok
  next code =>
  obtain ⟨⟨params, ret⟩, _, htypes, hend⟩ := of_run_bind_ok hmatch
  obtain ⟨hparsed, rfl⟩ := of_run_lift_ok htypes
  obtain ⟨hm, rfl⟩ := Prod.mk.inj hend
  obtain rfl := Except.ok.inj hm
  refine ⟨rfl, ?_, ?_, ?_, ret, Checked.mapError_eq_ok.mp hparsed⟩
  · rw [ClassFile.methodPosition?, List.findIdx?_eq_fst_find?_zipIdx]
    exact congrArg (Option.map Prod.snd) hfind
  · exact List.mk_mem_zipIdx_iff_getElem?.mp (List.mem_of_find?_eq_some hfind)
  · have hsome := Checked.mapError_eq_ok.mp hfound
    by_contra hany
    have hnone : info.attributes.find? (MemberInfo.isCode c.file.pool) = none := by
      simpa using hany
    rw [MemberInfo.code, hnone] at hsome
    cases hsome

/-- An entry in the place of one that looks the same. -/
theorem map_set_of_eq {α β : Type} {f : α → β} {l : List α} {i : Nat} {a b : α}
    (ha : l[i]? = some a) (h : f b = f a) : (l.set i b).map f = l.map f := by
  obtain ⟨hlt, rfl⟩ := List.getElem?_eq_some_iff.mp ha
  have hlt' : i < (l.map f).length := by rwa [List.length_map]
  have hi : f b = (l.map f)[i] := by rw [List.getElem_map, h]
  rw [List.map_set, hi, List.set_getElem_self]

/-- What a successful operation makes of the class file: `c` is the class before, and `file` is its
file with the constants of the operation. -/
inductive Change (c : ClassUnit) (file : ClassFile) : ClassOp → ClassFile → Prop
  | header {op : ClassOp} (superClass : UInt16) (interfaces : List UInt16)
      (hop : op.target? = none) : Change c file op { file with superClass, interfaces }
  | field {op : ClassOp} {name : String} (m : MemberInfo) (hop : op.target? = none)
      (hnew : c.hasField name = false)
      (hname : file.pool.Indexable → file.pool.utf8 m.name = .ok name) :
      Change c file op { file with fields := file.fields ++ [m] }
  | method {op : ClassOp} {name descriptor : String} (m : MemberInfo) (hop : op.target? = none)
      (hnew : c.hasMethod name descriptor = false)
      (hkey : file.pool.Indexable →
        file.pool.utf8 m.name = .ok name ∧ file.pool.utf8 m.descriptor = .ok descriptor) :
      Change c file op { file with methods := file.methods ++ [m] }
  | code {op : ClassOp} {name descriptor : String} (m : MemberInfo) (position : Nat) (info : Bytes)
      (hop : op.target? = some (name, descriptor))
      (hposition : c.file.methodPosition? name descriptor = some position)
      (hmethod : c.file.methods[position]? = some m)
      (hcode : m.attributes.any (MemberInfo.isCode c.file.pool) = true) :
      Change c file op
        { file with
          methods := file.methods.set position
            { m with
              attributes := MemberInfo.replaceInfo (MemberInfo.isCode c.file.pool) info
                m.attributes } }

theorem Change.pool {c : ClassUnit} {op : ClassOp} {file file' : ClassFile}
    (h : Change c file op file') : file'.pool = file.pool := by
  cases h <;> rfl

theorem of_putCode {c c₁ c' : ClassUnit} {m : ExistingMethod} {code : CodeAttribute}
    (hc : Enlarged c c₁) (hm : m.info.attributes.any (MemberInfo.isCode c.file.pool) = true)
    (h : (putCode m code).run.run c₁ = (.ok (), c')) :
    c' = { c₁ with file := { c₁.file with
      methods := c₁.file.methods.set m.position
        { m.info with
          attributes := MemberInfo.replaceInfo (MemberInfo.isCode c.file.pool) code.toBytes
            m.info.attributes } } } := by
  obtain ⟨info, c₂, hinfo, hset⟩ := of_run_bind_ok h
  obtain rfl := of_run_modify_ok hset
  have hcode := isCode_grows hc.pool hm
  have hany : m.info.attributes.any (MemberInfo.isCode c₁.file.pool) = true := by rw [hcode, hm]
  have hrun := MemberInfo.setCode_of_any hany code
  rw [hcode] at hrun
  rw [run_addConstants hrun] at hinfo
  obtain ⟨hnew, rfl⟩ := Prod.mk.inj hinfo
  obtain rfl := Except.ok.inj hnew
  rfl

theorem not_run_duplicate_ok {α : Type} {name descriptor : String} {c c' : ClassUnit} {a : α} :
    (duplicate name descriptor : Edit α).run.run c ≠ (.ok a, c') := by
  intro h
  obtain ⟨_, _, _, hthrow⟩ := of_run_bind_ok h
  exact not_run_throw_ok hthrow

/-- A new field stands behind the others, and has its name and its descriptor. -/
theorem of_addField {flags : UInt16} {name : String} {t : TypeName} {c c' : ClassUnit}
    (h : (addField flags name t).run.run c = (.ok (), c')) :
    ∃ c₁ m, Enlarged c c₁ ∧
      c' = { c₁ with file := { c₁.file with fields := c₁.file.fields ++ [m] } } ∧
      c.hasField name = false ∧ (c₁.file.pool.Indexable →
        c₁.file.pool.utf8 m.name = .ok name ∧
          c₁.file.pool.utf8 m.descriptor = .ok t.descriptor) := by
  obtain ⟨_, _, hget, hguard⟩ := of_run_bind_ok h
  obtain ⟨rfl, rfl⟩ := of_run_get_ok hget
  obtain ⟨hnew, hadd⟩ := of_run_guard_ok (fun _ _ _ => not_run_duplicate_ok) hguard
  obtain ⟨m, c₁, hm, hset⟩ := of_run_bind_ok hadd
  obtain rfl := of_run_modify_ok hset
  exact ⟨c₁, m, (keeps_memberInfo _ _ _).of_run hm, rfl, Bool.eq_false_iff.mpr hnew,
    of_memberInfo hm (ConstantPool.Grows.refl _)⟩

/-- A new method stands behind the others, and has its name and its descriptor. -/
theorem of_addMethod {flags : UInt16} {name : String} {params : List TypeName} {ret : TypeName}
    {body : List Stmt} {c c' : ClassUnit}
    (h : (addMethod flags name params ret body).run.run c = (.ok (), c')) :
    ∃ c₁ m, Enlarged c c₁ ∧
      c' = { c₁ with file := { c₁.file with methods := c₁.file.methods ++ [m] } } ∧
      c.hasMethod name (methodDescriptor params ret) = false ∧ (c₁.file.pool.Indexable →
        c₁.file.pool.utf8 m.name = .ok name ∧
          c₁.file.pool.utf8 m.descriptor = .ok (methodDescriptor params ret)) := by
  obtain ⟨_, _, hget, hguard⟩ := of_run_bind_ok h
  obtain ⟨rfl, rfl⟩ := of_run_get_ok hget
  obtain ⟨hnew, hadd⟩ := of_run_guard_ok (fun _ _ _ => not_run_duplicate_ok) hguard
  obtain ⟨emitted, c₁, hemit, hframes⟩ := of_run_bind_ok hadd
  obtain ⟨attributes, c₂, hattributes, hmember⟩ := of_run_bind_ok hframes
  obtain ⟨m, c₃, hm, hcode⟩ := of_run_bind_ok hmember
  obtain ⟨m', c₄, hm', hmodify⟩ := of_run_bind_ok hcode
  obtain rfl := of_run_modify_ok hmodify
  have hto₃ := trans_of Enlarged (trans_of Enlarged
    ((keeps_onPool (grows_emitMethod _ body)).of_run hemit)
    ((keeps_frameAttributes _ _).of_run hattributes)) ((keeps_memberInfo _ _ _).of_run hm)
  have hset := m.adds_setCode {
    maxStack := emitted.maxStack, maxLocals := emitted.maxLocals, code := emitted.code, attributes }
  have hto₄ := (keeps_addConstants hset).of_run hm'
  refine ⟨c₄, m', trans_of Enlarged hto₃ hto₄, rfl, Bool.eq_false_iff.mpr hnew, ?_⟩
  intro hindexable
  obtain ⟨hname, hdescriptor⟩ := of_addConstants hset hm' (ConstantPool.Grows.refl _) hindexable
  rw [hname, hdescriptor]
  exact of_memberInfo hm hto₄.pool hindexable

/-- Code is put into the method that it was made for, once all its constants are there. -/
theorem change_patch {op : ClassOp} {name descriptor : String} {c c' : ClassUnit}
    {m : ExistingMethod} {emit : ConstantPool → Except Error EmittedCode × ConstantPool}
    {edit : Fragment → List VerificationType → Bool → IndexedBody.Editing CodeAttribute}
    (hop : op.target? = some (name, descriptor))
    (hm : (existing name descriptor).run.run c = (.ok m, c))
    (hemit : ∀ pool : ConstantPool, pool.Grows (emit pool).2)
    (hedit : ∀ fragment entry withFrames, Keeps ConstantPool.Grows (edit fragment entry withFrames))
    (h : (patch m emit edit).run.run c = (.ok (), c')) :
    ∃ c₁ file, Enlarged c c₁ ∧ c' = { c₁ with file } ∧ Change c c₁.file op file := by
  obtain ⟨-, hposition, hmethod, hcode, -⟩ := of_existing hm
  obtain ⟨c₁, code, hc, hput⟩ := of_patch hemit hedit h
  exact ⟨c₁, _, hc, of_putCode hc hcode hput, .code m.info m.position code.toBytes hop hposition
    hmethod hcode⟩

/-- The code of a method behind a prologue that was emitted for it. -/
theorem of_insertBefore {name descriptor : String} {body : List Stmt} {c c' : ClassUnit}
    (h : (insertBefore name descriptor body).run.run c = (.ok (), c')) :
    ∃ m emitted fragment entry withFrames pool patched,
      (existing name descriptor).run.run c = (.ok m, c) ∧
      (emitFragment m.context body c.file.pool).1 = .ok emitted ∧
      Fragment.ofEmitted emitted = .ok fragment ∧
      (emitFragment m.context body c.file.pool).2.Grows pool ∧
      (m.code.insertPrologue fragment entry withFrames).run.run pool
        = (.ok patched, c'.file.pool) ∧
      c'.file.methods = c.file.methods.set m.position { m.info with
        attributes := MemberInfo.replaceInfo (MemberInfo.isCode c.file.pool) patched.toBytes
          m.info.attributes } := by
  rw [insertBefore_eq] at h
  obtain ⟨m, _, hm, hpatch⟩ := of_run_bind_ok h
  obtain ⟨rfl, -, -, hcode, -⟩ := of_existing hm
  obtain ⟨emitted, fragment, entry, withFrames, pool, c₁, patched, hemit, hfragment, hgrows, hedit,
    hto, hput⟩ := code_of_patch (grows_emitFragment m.context body)
      (fun _ _ _ => m.code.keeps_edit _ _ _) hpatch
  obtain rfl := of_putCode hto hcode hput
  exact ⟨m, emitted, fragment, entry, withFrames, pool, patched, hm, hemit, hfragment, hgrows,
    hedit, by rw [← hto.methods]⟩

/-- A successful operation makes one change, after it has added its constants. -/
theorem of_step {op : ClassOp} {c c' : ClassUnit} (h : op.step.run.run c = (.ok (), c')) :
    ∃ c₁ file, Enlarged c c₁ ∧ c' = { c₁ with file } ∧ Change c c₁.file op file := by
  have hclass : ∀ t : TypeName, Keeps Enlarged
      (addConstants (ConstantPool.addClass t.internalName)) :=
    fun t => keeps_addConstants (ConstantPool.adds_class _)
  cases op with
  | setSuperclass t =>
    obtain ⟨index, c₁, hindex, hset⟩ := of_run_bind_ok h
    obtain rfl := of_run_modify_ok hset
    exact ⟨c₁, _, (hclass t).of_run hindex, rfl, .header index c₁.file.interfaces rfl⟩
  | clearSuperclass =>
    obtain rfl := of_run_modify_ok h
    exact ⟨c, _, refl_of Enlarged c, rfl, .header 0 c.file.interfaces rfl⟩
  | addInterface t =>
    obtain ⟨index, c₁, hindex, hset⟩ := of_run_bind_ok h
    obtain rfl := of_run_modify_ok hset
    refine ⟨c₁, _, (hclass t).of_run hindex, rfl, ?_⟩
    beta_reduce
    split_ifs
    · exact .header c₁.file.superClass c₁.file.interfaces rfl
    · exact .header c₁.file.superClass _ rfl
  | addField flags name t =>
    obtain ⟨c₁, m, hc, rfl, hnew, hkey⟩ := of_addField h
    exact ⟨c₁, _, hc, rfl, .field m rfl hnew fun hindexable => (hkey hindexable).1⟩
  | declareMethod flags name params ret =>
    obtain ⟨_, _, hget, hguard⟩ := of_run_bind_ok h
    obtain ⟨rfl, rfl⟩ := of_run_get_ok hget
    obtain ⟨hnew, hadd⟩ := of_run_guard_ok (fun _ _ _ => not_run_duplicate_ok) hguard
    obtain ⟨m, c₁, hm, hset⟩ := of_run_bind_ok hadd
    obtain rfl := of_run_modify_ok hset
    exact ⟨c₁, _, (keeps_memberInfo _ _ _).of_run hm, rfl,
      .method m rfl (Bool.eq_false_iff.mpr hnew)
      fun hindexable => of_memberInfo hm (ConstantPool.Grows.refl _) hindexable⟩
  | addMethod flags name params ret body =>
    obtain ⟨c₁, m, hc, rfl, hnew, hkey⟩ := of_addMethod h
    exact ⟨c₁, _, hc, rfl, .method m rfl hnew hkey⟩
  | insertBefore name descriptor body =>
    rw [ClassOp.step, insertBefore_eq] at h
    obtain ⟨m, _, hm, hpatch⟩ := of_run_bind_ok h
    obtain ⟨rfl, -⟩ := of_existing hm
    exact change_patch rfl hm (grows_emitFragment m.context body)
      (fun _ _ _ => m.code.keeps_edit _ _ _) hpatch
  | replaceReturns name descriptor body =>
    rw [ClassOp.step, replaceReturns_eq] at h
    obtain ⟨m, _, hm, hvoid⟩ := of_run_bind_ok h
    obtain ⟨rfl, -⟩ := of_existing hm
    obtain ⟨-, hwide⟩ := of_run_guard_ok (fun _ _ _ => not_run_throw_ok) hvoid
    obtain ⟨-, hpatch⟩ := of_run_guard_ok (fun _ _ _ => not_run_throw_ok) hwide
    exact change_patch rfl hm (grows_emitMethod m.context body)
      (fun _ _ _ => m.code.keeps_edit _ _ _) hpatch

end ClassUnit

end ClassSynth
