import ClassSynth.ClassUnit.Edit
import ClassSynth.Proofs.Emit.Constants

/-!
# Constants of failed edits

What precedes the last change of an edit only adds constants to the class, whether it fails or not:
the compilation of bodies, the edits of code and the frames of new code. A class is `Enlarged` by
constants that nothing refers to yet.
-/

namespace ClassSynth

instance : IsPreorder ConstantPool ConstantPool.Grows where
  refl := ConstantPool.Grows.refl
  trans _ _ _ := ConstantPool.Grows.trans

/-! ## Edits of code -/

namespace IndexedBody

variable {α β : Type}

theorem keeps_adding {step : ConstantPool.Adding α} {P : ConstantPool → α → Prop}
    (h : ConstantPool.Adds step P) : Keeps ConstantPool.Grows (step : Editing α) :=
  fun p => (h p).1

theorem keeps_namedAttribute (name : AttributeName) (info : Bytes) :
    Keeps ConstantPool.Grows (namedAttribute name info) :=
  (keeps_adding (ConstantPool.adds_utf8 name.text)).bind fun _ => .pure

theorem keeps_tableAttribute {name : AttributeName} {convert : α → Except ClassFormatError β}
    {write : List β → Bytes} {rows : List α} :
    Keeps ConstantPool.Grows (tableAttribute name convert write rows) :=
  .ite .pure (Keeps.lift.bind fun _ => (keeps_namedAttribute _ _).bind fun _ => .pure)

theorem keeps_toCode (entryLocals : List VerificationType) (withFrames : Bool)
    (body : IndexedBody) : Keeps ConstantPool.Grows (body.toCode entryLocals withFrames) :=
  Keeps.lift.bind fun _ => Keeps.lift.bind fun _ => keeps_tableAttribute.bind fun _ =>
    keeps_tableAttribute.bind fun _ => keeps_tableAttribute.bind fun _ =>
    keeps_tableAttribute.bind fun _ => .pure

end IndexedBody

/-- Editing code keeps all constants, whether it fails or not. -/
theorem CodeAttribute.keeps_edit (entryLocals : List VerificationType) (withFrames : Bool)
    (change : IndexedBody → IndexedBody) (c : CodeAttribute) :
    Keeps ConstantPool.Grows (c.edit entryLocals withFrames change) :=
  Keeps.get.bind fun _ => Keeps.lift.bind fun _ => IndexedBody.keeps_toCode _ _ _

/-! ## Code of members -/

namespace MemberInfo

variable {m : MemberInfo} {pool : ConstantPool}

/-- A method that has code gets the new code in its place, and no constants are added. -/
theorem setCode_of_any (h : m.attributes.any (isCode pool) = true) (code : CodeAttribute) :
    (m.setCode code).run pool =
      ({ m with attributes := replaceInfo (isCode pool) code.toBytes m.attributes }, pool) := by
  change (if m.attributes.any (isCode pool) then _ else _ : ConstantPool.Adding MemberInfo).run
    pool = _
  rw [if_pos h]
  rfl

/-- A method gets code, and its name and descriptor stay. -/
theorem adds_setCode (m : MemberInfo) (code : CodeAttribute) :
    ConstantPool.Adds (m.setCode code) fun _ m' =>
      m'.name = m.name ∧ m'.descriptor = m.descriptor := by
  intro p
  have hnew : ConstantPool.Adds (do
      let name ← ConstantPool.addUtf8 AttributeName.code.text
      return { m with attributes := m.attributes ++ [{ name, info := code.toBytes }] })
      fun _ (m' : MemberInfo) => m'.name = m.name ∧ m'.descriptor = m.descriptor :=
    (ConstantPool.adds_utf8 _).bind fun _ => .pure fun _ _ => ⟨rfl, rfl⟩
  by_cases hcode : m.attributes.any (isCode p) = true
  · rw [setCode_of_any hcode]
    exact ⟨ConstantPool.Grows.refl p, fun _ _ _ => ⟨rfl, rfl⟩⟩
  · have hrun : (m.setCode code).run p = (do
        let name ← ConstantPool.addUtf8 AttributeName.code.text
        return { m with attributes := m.attributes ++ [{ name, info := code.toBytes }] } :
          ConstantPool.Adding MemberInfo).run p := by
      change (if m.attributes.any (isCode p) then _ else _ : ConstantPool.Adding MemberInfo).run
        p = _
      rw [if_neg hcode]
    rw [hrun]
    exact hnew p

end MemberInfo

namespace ClassUnit

/-- The later class differs from the earlier one by constants only, and knows the earlier ones. -/
structure Enlarged (c c' : ClassUnit) : Prop where
  rest : c' = { c with file := { c.file with pool := c'.file.pool } }
  pool : c.file.pool.Grows c'.file.pool

namespace Enlarged

variable {c c' : ClassUnit}

theorem fields (h : Enlarged c c') : c'.file.fields = c.file.fields := by rw [h.rest]

theorem methods (h : Enlarged c c') : c'.file.methods = c.file.methods := by rw [h.rest]

/-- A class with more constants. -/
theorem of_pool {pool : ConstantPool} (h : c.file.pool.Grows pool) :
    Enlarged c { c with file := { c.file with pool } } where
  rest := rfl
  pool := h

end Enlarged

instance : IsPreorder ClassUnit Enlarged where
  refl c := ⟨rfl, ConstantPool.Grows.refl _⟩
  trans a b c hab hbc := ⟨by rw [hbc.rest, hab.rest], hab.pool.trans hbc.pool⟩

/-! ## Steps before the last change -/

variable {α β : Type}

theorem keeps_onPool {step : ConstantPool → Except Error α × ConstantPool}
    (h : ∀ pool : ConstantPool, pool.Grows (step pool).2) : Keeps Enlarged (onPool step) := by
  refine Keeps.bind (Keeps.modifyGet fun c => Enlarged.of_pool (h c.file.pool)) fun result => ?_
  cases result with
  | ok a => exact .pure
  | error e => exact .throw

theorem run_onPool_of_ok {step : ConstantPool → Except Error α × ConstantPool} {c : ClassUnit}
    {a : α} {pool : ConstantPool} (h : step c.file.pool = (.ok a, pool)) :
    (onPool step).run.run c = (.ok a, { c with file := { c.file with pool } }) := by
  have hresult : ((.ok (step c.file.pool).1,
      { c with file := { c.file with pool := (step c.file.pool).2 } }) :
        Except Error (Except Error α) × ClassUnit) =
      (.ok (.ok a), { c with file := { c.file with pool } }) := by
    rw [h]
  exact run_bind_of_ok hresult

theorem of_onPool {step : ConstantPool → Except Error α × ConstantPool} {c c' : ClassUnit} {a : α}
    (h : (onPool step).run.run c = (.ok a, c')) : step c.file.pool = (.ok a, c'.file.pool) := by
  obtain ⟨_, c₁, hmodify, hmatch⟩ := of_run_bind_ok h
  obtain ⟨hresult, rfl⟩ := Prod.mk.inj hmodify
  obtain rfl := Except.ok.inj hresult
  dsimp only at hmatch
  cases hstep : (step c.file.pool).1 with
  | error e =>
    rw [hstep] at hmatch
    exact absurd hmatch not_run_throw_ok
  | ok b =>
    rw [hstep] at hmatch
    obtain ⟨hb, rfl⟩ := Prod.mk.inj hmatch
    obtain rfl := Except.ok.inj hb
    rw [← hstep]

theorem keeps_addConstants {step : ConstantPool.Adding α} {P : ConstantPool → α → Prop}
    (h : ConstantPool.Adds step P) : Keeps Enlarged (addConstants step) :=
  keeps_onPool fun pool => (h pool).1

theorem run_addConstants {step : ConstantPool.Adding α} {c : ClassUnit} {a : α}
    {pool : ConstantPool} (h : step.run c.file.pool = (a, pool)) :
    (addConstants step).run.run c = (.ok a, { c with file := { c.file with pool } }) := by
  change ((.ok (step.run c.file.pool).1, { c with file :=
    { c.file with pool := (step.run c.file.pool).2 } }) : Except Error α × ClassUnit) = _
  rw [h]

/-- A method without frames whose constants are there is all that is added. -/
theorem run_addMethod {c : ClassUnit} {flags nameIndex descriptor codeIndex : UInt16}
    {name : String} {params : List TypeName} {ret : TypeName} {body : List Stmt} {e : EmittedCode}
    (hnew : c.hasMethod name (methodDescriptor params ret) = false)
    (hemit : emitMethod (methodContext c.name flags name params ret) body c.file.pool =
      (.ok e, c.file.pool))
    (hframes : e.frames = []) (hname : c.file.pool.Holds (ConstantPool.addUtf8 name) nameIndex)
    (hdescriptor :
      c.file.pool.Holds (ConstantPool.addUtf8 (methodDescriptor params ret)) descriptor)
    (hcode : c.file.pool.Holds (ConstantPool.addUtf8 AttributeName.code.text) codeIndex) :
    c.runEdit (addMethod flags name params ret body) = (.ok (), { c with
      file := { c.file with
        methods := c.file.methods ++ [{
          flags, name := nameIndex, descriptor
          attributes := [⟨codeIndex, CodeAttribute.toBytes
            { maxStack := e.maxStack, maxLocals := e.maxLocals, code := e.code }⟩] }] } }) := by
  have hattributes :
      (frameAttributes (methodContext c.name flags name params ret) e.frames).run.run c =
        (.ok [], c) := by
    rw [frameAttributes, hframes]
    rfl
  have hinfo : (memberInfo flags name (methodDescriptor params ret)).run.run c =
      (.ok { flags, name := nameIndex, descriptor }, c) :=
    (run_bind_of_ok (run_addConstants hname)).trans (run_bind_of_ok (run_addConstants hdescriptor))
  have hset : c.file.pool.Holds
      (MemberInfo.setCode { flags, name := nameIndex, descriptor }
        { maxStack := e.maxStack, maxLocals := e.maxLocals, code := e.code })
      { flags, name := nameIndex, descriptor
        attributes := [⟨codeIndex, CodeAttribute.toBytes
          { maxStack := e.maxStack, maxLocals := e.maxLocals, code := e.code }⟩] } := by
    have hadd : c.file.pool.Holds (do
        let index ← ConstantPool.addUtf8 AttributeName.code.text
        return ({
          flags, name := nameIndex, descriptor
          attributes := [⟨index, CodeAttribute.toBytes
            { maxStack := e.maxStack, maxLocals := e.maxLocals, code := e.code }⟩] } :
              MemberInfo)) _ := hcode.bind rfl
    exact hadd
  rw [runEdit, addMethod, run_get_bind, hnew]
  refine (run_bind_of_ok (run_onPool_of_ok hemit)).trans ?_
  refine (run_bind_of_ok hattributes).trans ?_
  refine (run_bind_of_ok hinfo).trans ?_
  exact (run_bind_of_ok (run_addConstants hset)).trans rfl

/-- What is known of an added constant holds in every later pool. -/
theorem of_addConstants {step : ConstantPool.Adding α} {P : ConstantPool → α → Prop}
    (hstep : ConstantPool.Adds step P) {c c' : ClassUnit} {a : α}
    (h : (addConstants step).run.run c = (.ok a, c')) {later : ConstantPool}
    (hlater : c'.file.pool.Grows later) (hindexable : later.Indexable) : P later a := by
  rw [run_addConstants (Prod.eta (step.run c.file.pool)).symm] at h
  obtain ⟨ha, rfl⟩ := Prod.mk.inj h
  exact Except.ok.inj ha ▸ (hstep c.file.pool).2 later hlater hindexable

theorem of_editCode {step : IndexedBody.Editing α} {c c' : ClassUnit} {a : α}
    (h : (editCode step).run.run c = (.ok a, c')) :
    step.run.run c.file.pool = (.ok a, c'.file.pool) := by
  have hrun : (liftFormat (step.run.run c.file.pool).1, (step.run.run c.file.pool).2)
      = (.ok a, c'.file.pool) := of_onPool h
  obtain ⟨hresult, hpool⟩ := Prod.mk.inj hrun
  exact Prod.ext (Checked.mapError_eq_ok.mp hresult) hpool

theorem keeps_editCode {step : IndexedBody.Editing α} (h : Keeps ConstantPool.Grows step) :
    Keeps Enlarged (editCode step) :=
  keeps_onPool fun pool => h pool

theorem keeps_duplicate (name descriptor : String) :
    Keeps Enlarged (duplicate name descriptor : Edit α) :=
  Keeps.get.bind fun _ => .throw

theorem keeps_memberInfo (flags : UInt16) (name descriptor : String) :
    Keeps Enlarged (memberInfo flags name descriptor) :=
  (keeps_addConstants (ConstantPool.adds_utf8 name)).bind fun _ =>
    (keeps_addConstants (ConstantPool.adds_utf8 descriptor)).bind fun _ => .pure

/-- A new member has its name and its descriptor in every later pool. -/
theorem of_memberInfo {flags : UInt16} {name descriptor : String} {c c' : ClassUnit}
    {m : MemberInfo} (h : (memberInfo flags name descriptor).run.run c = (.ok m, c'))
    {later : ConstantPool} (hlater : c'.file.pool.Grows later) (hindexable : later.Indexable) :
    later.utf8 m.name = .ok name ∧ later.utf8 m.descriptor = .ok descriptor := by
  obtain ⟨nameIndex, c₁, hname, h⟩ := of_run_bind_ok h
  obtain ⟨descriptorIndex, c₂, hdescriptor, h⟩ := of_run_bind_ok h
  obtain ⟨hm, rfl⟩ := Prod.mk.inj h
  obtain rfl := Except.ok.inj hm
  have hto := (keeps_addConstants (ConstantPool.adds_utf8 descriptor)).of_run hdescriptor
  exact ⟨of_addConstants (ConstantPool.adds_utf8 name) hname (hto.pool.trans hlater) hindexable,
    of_addConstants (ConstantPool.adds_utf8 descriptor) hdescriptor hlater hindexable⟩

theorem keeps_frameAttributes (ctx : MethodContext) (frames : List FrameState) :
    Keeps Enlarged (frameAttributes ctx frames) := by
  have hframes : Keeps Enlarged (do
      let entry ← addConstants ctx.entryLocals
      let name ← addConstants (ConstantPool.addUtf8 AttributeName.stackMapTable.text)
      return [{ name, info := FrameState.tableBytes frames entry }] : Edit (List Attribute)) :=
    (keeps_addConstants ctx.adds_entryLocals).bind fun _ =>
      (keeps_addConstants (ConstantPool.adds_utf8 _)).bind fun _ => .pure
  exact Keeps.get.bind fun _ => .ite .pure hframes

theorem keeps_existing (name descriptor : String) : Keeps Enlarged (existing name descriptor) := by
  refine Keeps.get.bind fun c => Keeps.lift.bind fun _ => ?_
  split
  · exact .throw
  · refine Keeps.lift.bind fun code => ?_
    split
    · exact .throw
    · exact Keeps.lift.bind fun _ => .pure

end ClassUnit

end ClassSynth
