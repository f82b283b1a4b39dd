import ClassSynth.Action.Apply
import ClassSynth.Proofs.ClassUnit.Fields
import ClassSynth.Proofs.ClassUnit.Members
import ClassSynth.Proofs.Descriptor.RoundTrip
import ClassSynth.Proofs.Synthesis.Returns

/-!
# Factory methods of a class

A factory is a static method that is found by its name and descriptor, its key. Operations keep the
methods of a class in their places (`MethodsChange`), so the first method of a key stays the first
one, and stays static.
-/

namespace ClassSynth

/-! ## The first method of a key -/

namespace MemberInfo

/-- All of a member but its attributes. -/
def head (m : MemberInfo) : UInt16 × UInt16 × UInt16 := (m.flags, m.name, m.descriptor)

def isStatic (m : MemberInfo) : Bool := AccessFlags.has m.flags AccessFlags.isStatic

theorem isStatic_of_head {m m' : MemberInfo} (h : m'.head = m.head) : m'.isStatic = m.isStatic := by
  rw [isStatic, isStatic, (Prod.mk.inj h).1]

end MemberInfo

namespace ClassFile

variable {f f' : ClassFile} {key : String × String} {i : Nat} {m m' : MemberInfo}

theorem isMember_iff {name descriptor : String} :
    f.isMember name descriptor m = true ↔ f.methodKey m = .ok (name, descriptor) := by
  rw [isMember, Bool.and_eq_true, ClassUnit.hasText_iff, ClassUnit.hasText_iff, methodKey_eq_ok,
    ConstantPool.utf8_eq_ok, ConstantPool.utf8_eq_ok]

theorem methodKey_of_head (h : m'.head = m.head) : f.methodKey m' = f.methodKey m := by
  obtain ⟨-, hname, hdescriptor⟩ := Prod.mk.inj h |>.imp_right Prod.mk.inj
  rw [methodKey, methodKey, hname, hdescriptor]

/-- The method at the position has the key, and those before it have other keys. -/
structure FirstOf (f : ClassFile) (key : String × String) (i : Nat) (m : MemberInfo) : Prop where
  here : f.methods[i]? = some m
  hasKey : f.methodKey m = .ok key
  before : ∀ b ∈ f.methods.take i, ∃ other, f.methodKey b = .ok other ∧ other ≠ key

namespace FirstOf

theorem methodPosition? (h : f.FirstOf key i m) : f.methodPosition? key.1 key.2 = some i := by
  obtain ⟨hlt, hm⟩ := List.getElem?_eq_some_iff.mp h.here
  refine List.findIdx?_eq_some_iff_getElem.mpr ⟨hlt, ?_, fun j hj => ?_⟩
  · exact isMember_iff.mpr (hm ▸ h.hasKey)
  · intro hmember
    have hmem : f.methods[j] ∈ f.methods.take i :=
      List.mem_take_iff_getElem.mpr ⟨j, by omega, rfl⟩
    obtain ⟨other, hother, hne⟩ := h.before _ hmem
    exact hne (Except.ok.inj (hother.symm.trans (isMember_iff.mp hmember)))

/-- The first method stays the first one while methods stay in their places. -/
theorem keep (h : f.FirstOf key i m) (hpool : f.pool.Grows f'.pool)
    (hmethods : f.methods.map MemberInfo.head <+: f'.methods.map MemberInfo.head) :
    ∃ m', f'.FirstOf key i m' ∧ m'.head = m.head := by
  obtain ⟨hlt, -⟩ := List.getElem?_eq_some_iff.mp h.here
  obtain ⟨more, hmore⟩ := hmethods
  have hheads : ∀ j ≤ i, (f'.methods.map MemberInfo.head)[j]?
      = (f.methods.map MemberInfo.head)[j]? := by
    intro j hj
    rw [← hmore, List.getElem?_append_left (by rw [List.length_map]; omega)]
  have hhead := hheads i le_rfl
  rw [List.getElem?_map, List.getElem?_map, h.here, Option.map_some] at hhead
  obtain ⟨m', hm', hsame⟩ := Option.map_eq_some_iff.mp hhead
  refine ⟨m', ⟨hm', ?_, fun b hb => ?_⟩, hsame⟩
  · rw [methodKey_of_head hsame]
    exact methodKey_grows hpool m key h.hasKey
  · obtain ⟨j, hj, rfl⟩ := List.mem_take_iff_getElem.mp hb
    have hjth := hheads j (by omega)
    rw [List.getElem?_map, List.getElem?_map, List.getElem?_eq_getElem (by omega), List.getElem?_eq_getElem (by omega)] at hjth
    obtain ⟨other, hother, hne⟩ := h.before f.methods[j]
      (List.mem_take_iff_getElem.mpr ⟨j, by omega, rfl⟩)
    refine ⟨other, ?_, hne⟩
    rw [methodKey_of_head (Option.some.inj hjth)]
    exact methodKey_grows hpool _ other hother

end FirstOf

end ClassFile

/-! ## New methods -/

namespace MemberInfo

variable {m : MemberInfo} {pool pool' : ConstantPool} {code : CodeAttribute}

/-- The code attribute of the method holds the code. -/
def HasCode (m : MemberInfo) (pool : ConstantPool) (code : CodeAttribute) : Prop :=
  ∃ a, m.attributes.find? (isCode pool) = some a ∧ a.info = code.toBytes

theorem HasCode.any (h : m.HasCode pool code) : m.attributes.any (isCode pool) = true := by
  obtain ⟨a, ha, -⟩ := h
  exact List.any_eq_true.mpr ⟨a, List.mem_of_find?_eq_some ha, List.find?_some ha⟩

theorem HasCode.grows (h : m.HasCode pool code) (hpool : pool.Grows pool') :
    m.HasCode pool' code := by
  have hsame := ClassUnit.isCode_grows hpool h.any
  rwa [HasCode, hsame]

theorem hasCode_replaceInfo (h : m.attributes.any (isCode pool) = true) :
    HasCode { m with attributes := replaceInfo (isCode pool) code.toBytes m.attributes } pool
      code := by
  obtain ⟨before, a, after, -, ha, hbefore, hreplace⟩ := ClassUnit.exists_replaceInfo h
  have hcode : isCode pool { a with info := code.toBytes } = true := ha
  refine ⟨{ a with info := code.toBytes }, ?_, rfl⟩
  dsimp only
  rw [hreplace, List.find?_append, List.find?_eq_none.mpr fun b hb => by simp [hbefore b hb],
    Option.none_or, List.find?_cons_of_pos hcode]

/-- A method without attributes gets code, and all else stays. -/
theorem adds_setCode_of_none (hnone : m.attributes = []) :
    ConstantPool.Adds (m.setCode code) fun r m' => m'.head = m.head ∧ m'.HasCode r code := by
  have hset : m.setCode code = (do
      let name ← ConstantPool.addUtf8 AttributeName.code.text
      return { m with attributes := m.attributes ++ [{ name, info := code.toBytes }] }) := by
    funext p
    change (if m.attributes.any (isCode p) then _ else _ : ConstantPool.Adding MemberInfo).run
      p = _
    rw [hnone, List.any_nil]
    rfl
  rw [hset]
  refine (ConstantPool.adds_utf8 _).bind fun name => .pure fun r hname => ⟨rfl, ?_⟩
  have hcode : isCode r { name, info := code.toBytes } = true :=
    ClassUnit.hasText_iff.mpr (ConstantPool.utf8_eq_ok.mp hname)
  rw [HasCode, hnone]
  exact ⟨_, List.find?_cons_of_pos hcode, rfl⟩

end MemberInfo

namespace ClassUnit

variable {c c' : ClassUnit} {name descriptor : String}

theorem of_memberInfo_parts {flags : UInt16} {m : MemberInfo}
    (h : (memberInfo flags name descriptor).run.run c = (.ok m, c')) :
    m.flags = flags ∧ m.attributes = [] := by
  obtain ⟨nameIndex, c₁, -, hrest⟩ := of_run_bind_ok h
  obtain ⟨descriptorIndex, c₂, -, hend⟩ := of_run_bind_ok hrest
  obtain rfl := Except.ok.inj (Prod.mk.inj hend).1
  exact ⟨rfl, rfl⟩

/-- A new method has the flags, the key and the code that was emitted for it. -/
theorem code_of_addMethod {flags : UInt16} {params : List TypeName} {ret : TypeName}
    {body : List Stmt} (h : (addMethod flags name params ret body).run.run c = (.ok (), c')) :
    ∃ emitted m,
      (emitMethod (methodContext c.name flags name params ret) body c.file.pool).1 = .ok emitted ∧
      (emitMethod (methodContext c.name flags name params ret) body c.file.pool).2.Grows
        c'.file.pool ∧
      c.hasMethod name (methodDescriptor params ret) = false ∧
      c'.file.methods = c.file.methods ++ [m] ∧
      (c'.file.pool.Indexable → m.flags = flags ∧
        c'.file.methodKey m = .ok (name, methodDescriptor params ret) ∧
        ∃ attributes, m.HasCode c'.file.pool {
          maxStack := emitted.maxStack, maxLocals := emitted.maxLocals, code := emitted.code
          attributes }) := by
  obtain ⟨_, _, hget, hguard⟩ := of_run_bind_ok h
  obtain ⟨rfl, rfl⟩ := of_run_get_ok hget
  obtain ⟨hnew, hadd⟩ := of_run_guard_ok (fun _ _ _ => not_run_duplicate_ok) hguard
  obtain ⟨emitted, c₁, hemit, hframes⟩ := of_run_bind_ok hadd
  obtain ⟨attributes, c₂, hattributes, hmember⟩ := of_run_bind_ok hframes
  obtain ⟨m, c₃, hm, hcode⟩ := of_run_bind_ok hmember
  obtain ⟨m', c₄, hm', hmodify⟩ := of_run_bind_ok hcode
  obtain rfl := of_run_modify_ok hmodify
  have hrun := of_onPool hemit
  have hto₁ := (keeps_onPool (grows_emitMethod _ body)).of_run hemit
  have hto₂ := (keeps_frameAttributes _ _).of_run hattributes
  have hto₃ := (keeps_memberInfo _ _ _).of_run hm
  have hto₄ := (keeps_addConstants (m.adds_setCode _)).of_run hm'
  have hto := trans_of Enlarged (trans_of Enlarged hto₂ hto₃) hto₄
  have hmethods : c₄.file.methods = c.file.methods :=
    (trans_of Enlarged hto₁ hto).methods
  refine ⟨emitted, m', congrArg Prod.fst hrun, ?_, Bool.eq_false_iff.mpr hnew,
    congrArg (· ++ [m']) hmethods, fun hindexable => ?_⟩
  · rw [hrun]
    exact hto.pool
  obtain ⟨hflags, hnone⟩ := of_memberInfo_parts hm
  obtain ⟨hhead, hcode⟩ := of_addConstants (MemberInfo.adds_setCode_of_none hnone) hm'
    (ConstantPool.Grows.refl _) hindexable
  refine ⟨(Prod.mk.inj hhead).1.trans hflags, ?_, attributes, hcode⟩
  exact (ClassFile.methodKey_of_head hhead).trans
    (ClassFile.methodKey_eq_ok.mpr (of_memberInfo hm hto₄.pool hindexable))

end ClassUnit

/-! ## Operations and methods -/

namespace ClassOp

/-- The method that the operation adds: its flags, its name and its descriptor. -/
def added? : ClassOp → Option (UInt16 × String × String)
  | declareMethod flags name params ret => some (flags, name, methodDescriptor params ret)
  | addMethod flags name params ret _ => some (flags, name, methodDescriptor params ret)
  | _ => none

end ClassOp

namespace ClassUnit

variable {c c' : ClassUnit} {op : ClassOp}

/-- What a successful operation makes of the methods of a class. -/
inductive MethodsChange (c c' : ClassUnit) (op : ClassOp) : Prop
  | same (hmethods : c'.file.methods = c.file.methods)
  | added {flags : UInt16} {name descriptor : String} (m : MemberInfo)
      (hop : op.added? = some (flags, name, descriptor))
      (hmethods : c'.file.methods = c.file.methods ++ [m])
      (hhead : c'.file.pool.Indexable →
        m.flags = flags ∧ c'.file.methodKey m = .ok (name, descriptor))
  | code {name descriptor : String} {position : Nat} {m : MemberInfo} (info : Bytes)
      (hop : op.target? = some (name, descriptor))
      (hposition : c.file.methodPosition? name descriptor = some position)
      (hmethod : c.file.methods[position]? = some m)
      (hcode : m.attributes.any (MemberInfo.isCode c.file.pool) = true)
      (hmethods : c'.file.methods = c.file.methods.set position
        { m with
          attributes := MemberInfo.replaceInfo (MemberInfo.isCode c.file.pool) info m.attributes })

/-- An operation on code changes no other method. -/
theorem methodsChange_of_target (h : c.runEdit op.step = (.ok (), c')) (hop : op.target? ≠ none) :
    MethodsChange c c' op := by
  obtain ⟨c₁, file, hc, rfl, hchange⟩ := of_step h
  cases hchange with
  | header superClass interfaces hnone => exact absurd hnone hop
  | field m hnone => exact absurd hnone hop
  | method m hnone => exact absurd hnone hop
  | code m position info htarget hposition hmethod hcode =>
    exact .code info htarget hposition hmethod hcode (by rw [← hc.methods])

theorem methodsChange_of_step (h : c.runEdit op.step = (.ok (), c')) : MethodsChange c c' op := by
  have hclass : ∀ t : TypeName, Keeps Enlarged
      (addConstants (ConstantPool.addClass t.internalName)) :=
    fun t => keeps_addConstants (ConstantPool.adds_class _)
  cases op with
  | setSuperclass t =>
    obtain ⟨index, c₁, hindex, hset⟩ := of_run_bind_ok h
    obtain rfl := of_run_modify_ok hset
    exact .same ((hclass t).of_run hindex).methods
  | clearSuperclass =>
    obtain rfl := of_run_modify_ok h
    exact .same rfl
  | addInterface t =>
    obtain ⟨index, c₁, hindex, hset⟩ := of_run_bind_ok h
    obtain rfl := of_run_modify_ok hset
    refine .same (Eq.trans ?_ ((hclass t).of_run hindex).methods)
    beta_reduce
    split_ifs <;> rfl
  | addField flags name t =>
    obtain ⟨c₁, m, hc, rfl, -⟩ := of_addField h
    exact .same hc.methods
  | declareMethod flags name params ret =>
    obtain ⟨_, _, hget, hguard⟩ := of_run_bind_ok h
    obtain ⟨rfl, rfl⟩ := of_run_get_ok hget
    obtain ⟨-, hadd⟩ := of_run_guard_ok (fun _ _ _ => not_run_duplicate_ok) hguard
    obtain ⟨m, c₁, hm, hset⟩ := of_run_bind_ok hadd
    obtain rfl := of_run_modify_ok hset
    have hto := (keeps_memberInfo _ _ _).of_run hm
    refine .added m rfl (congrArg (· ++ [m]) hto.methods) fun hindexable => ?_
    exact ⟨(of_memberInfo_parts hm).1, ClassFile.methodKey_eq_ok.mpr
      (of_memberInfo hm (ConstantPool.Grows.refl _) hindexable)⟩
  | addMethod flags name params ret body =>
    obtain ⟨emitted, m, -, -, -, hmethods, hparts⟩ := code_of_addMethod h
    exact .added m rfl hmethods fun hindexable => (hparts hindexable).imp_right And.left
  | insertBefore name descriptor body => exact methodsChange_of_target h (by simp [ClassOp.target?])
  | replaceReturns name descriptor body =>
    exact methodsChange_of_target h (by simp [ClassOp.target?])

/-- Operations keep the methods in their places, but for the code. -/
structure KeepsHeads (c c' : ClassUnit) : Prop where
  pool : c.file.pool.Grows c'.file.pool
  methods : c.file.methods.map MemberInfo.head <+: c'.file.methods.map MemberInfo.head

theorem KeepsHeads.of_step (h : c.runEdit op.step = (.ok (), c')) : KeepsHeads c c' := by
  refine ⟨(KeepsMembers.of_step h).pool, ?_⟩
  cases methodsChange_of_step h with
  | same hmethods => rw [hmethods]
  | added m _ hmethods =>
    rw [hmethods, List.map_append]
    exact List.prefix_append _ _
  | code info _ _ hmethod _ hmethods =>
    rw [hmethods, map_set_of_eq hmethod]
    rfl

/-- A method of the later class is one of the earlier class, or the new one. -/
theorem head_of_step (h : c.runEdit op.step = (.ok (), c')) {m' : MemberInfo}
    (hm' : m' ∈ c'.file.methods) :
    (∃ m ∈ c.file.methods, m'.head = m.head) ∨
      ∃ flags name descriptor, op.added? = some (flags, name, descriptor) ∧
        (c'.file.pool.Indexable →
          m'.flags = flags ∧ c'.file.methodKey m' = .ok (name, descriptor)) := by
  cases methodsChange_of_step h with
  | same hmethods => exact .inl ⟨m', hmethods ▸ hm', rfl⟩
  | added m hop hmethods hhead =>
    rw [hmethods] at hm'
    obtain hm' | hm' := List.mem_append.mp hm'
    · exact .inl ⟨m', hm', rfl⟩
    · obtain rfl := List.mem_singleton.mp hm'
      exact .inr ⟨_, _, _, hop, hhead⟩
  | @code _ _ _ m info _ _ hmethod _ hmethods =>
    rw [hmethods] at hm'
    obtain hm' | rfl := List.mem_or_eq_of_mem_set hm'
    · exact .inl ⟨m', hm', rfl⟩
    · exact .inl ⟨m, List.mem_of_getElem? hmethod, rfl⟩

/-! ## Methods that are shown -/

variable {key : String × String} {name descriptor : String} {params : List TypeName}
  {ret : TypeName}

theorem methodSig_eq_ok {m : MemberInfo} {sig : MethodSig} : c.methodSig m = .ok sig ↔
    ∃ d, c.file.methodKey m = .ok (sig.name, d) ∧
      parseMethodDescriptor d = .ok (sig.params, sig.ret) ∧ sig.owner = c.name ∧
      sig.flags = m.flags := by
  simp only [ClassFile.methodKey_eq_ok]
  constructor
  · intro h
    obtain ⟨d, hd, hparse⟩ := Checked.bind_eq_ok.mp h
    obtain ⟨⟨ps, r⟩, htypes, hname⟩ := Checked.bind_eq_ok.mp hparse
    obtain ⟨n, hn, hsig⟩ := Checked.bind_eq_ok.mp hname
    obtain rfl := Checked.pure_eq_ok.mp hsig
    exact ⟨d, ⟨hn, hd⟩, htypes, rfl, rfl⟩
  · rintro ⟨d, ⟨hn, hd⟩, htypes, howner, hflags⟩
    refine Checked.bind_eq_ok.mpr ⟨d, hd, Checked.bind_eq_ok.mpr ⟨_, htypes,
      Checked.bind_eq_ok.mpr ⟨_, hn, Checked.pure_eq_ok.mpr ?_⟩⟩⟩
    rw [← howner, ← hflags]

/-- What a method shows stays the same. -/
theorem methodSig_keep (hto : KeepsMembers c c') {m m' : MemberInfo} {sig : MethodSig}
    (hhead : m'.head = m.head) (h : c.methodSig m = .ok sig) : c'.methodSig m' = .ok sig := by
  obtain ⟨d, hkey, htypes, howner, hflags⟩ := methodSig_eq_ok.mp h
  refine methodSig_eq_ok.mpr ⟨d, ?_, htypes, howner.trans hto.name.symm, ?_⟩
  · rw [ClassFile.methodKey_of_head hhead]
    exact ClassFile.methodKey_grows hto.pool m _ hkey
  · exact hflags.trans (Prod.mk.inj hhead).1.symm

/-- If methods can be looked up, all of them can be read. -/
theorem of_method? {found : Option MethodSig} (h : c.method? name descriptor = .ok found) :
    ∃ sigs, List.Forall₂ (fun m sig => c.methodSig m = .ok sig) c.file.methods sigs ∧
      found = sigs.find? fun sig => sig.name == name && sig.descriptor == descriptor := by
  obtain ⟨sigs, hsigs, hfound⟩ := Checked.bind_eq_ok.mp h
  exact ⟨sigs, Checked.mapM_eq_ok.mp (Checked.mapError_eq_ok.mp hsigs),
    (Checked.pure_eq_ok.mp hfound).symm⟩

/-! ### Absent methods -/

/-- All methods have keys, and other ones than this. -/
def Lacks (c : ClassUnit) (key : String × String) : Prop :=
  ∀ m ∈ c.file.methods, ∃ other, c.file.methodKey m = .ok other ∧ other ≠ key

theorem Lacks.hasMethod (h : c.Lacks (name, descriptor)) : c.hasMethod name descriptor = false := by
  rw [Bool.eq_false_iff]
  intro hmethod
  obtain ⟨m, hm, hname, hdescriptor⟩ := hasMethod_iff.mp hmethod
  obtain ⟨other, hother, hne⟩ := h m hm
  exact hne (Except.ok.inj (hother.symm.trans (ClassFile.methodKey_eq_ok.mpr ⟨hname, hdescriptor⟩)))

theorem Lacks.step (h : c.Lacks key) (hrun : c.runEdit op.step = (.ok (), c'))
    (hadds : ∀ flags, op.added? ≠ some (flags, key)) (hindexable : c'.file.pool.Indexable) :
    c'.Lacks key := by
  intro m' hm'
  obtain ⟨m, hm, hhead⟩ | ⟨flags, name, descriptor, hop, hnew⟩ := head_of_step hrun hm'
  · obtain ⟨other, hother, hne⟩ := h m hm
    refine ⟨other, ?_, hne⟩
    rw [ClassFile.methodKey_of_head hhead]
    exact ClassFile.methodKey_grows (KeepsMembers.of_step hrun).pool m other hother
  · exact ⟨_, (hnew hindexable).2, fun hsame => hadds flags (hsame ▸ hop)⟩

/-- A method that is not shown is not there. -/
theorem lacks_of_method? (hsig : parseMethodDescriptor (methodDescriptor params ret)
    = .ok (params, ret)) (h : c.method? name (methodDescriptor params ret) = .ok none) :
    c.Lacks (name, methodDescriptor params ret) := by
  obtain ⟨sigs, hsigs, hnone⟩ := of_method? h
  intro m hm
  obtain ⟨sig, hmem, hshown⟩ := Checked.exists_of_mem_left hsigs hm
  obtain ⟨d, hkey, htypes, -⟩ := methodSig_eq_ok.mp hshown
  refine ⟨_, hkey, fun hsame => ?_⟩
  obtain ⟨hname, rfl⟩ := Prod.mk.inj hsame
  obtain ⟨hparams, hret⟩ := Prod.mk.inj (Except.ok.inj (htypes.symm.trans hsig))
  refine List.find?_eq_none.mp hnone.symm sig hmem ?_
  rw [MethodSig.descriptor, hparams, hret, hname]
  simp

/-! ### Static methods -/

/-- All static methods can be read. One that shows the key has it, and there is one only if `P`. -/
def Statics (c : ClassUnit) (key : String × String) (P : Prop) : Prop :=
  ∀ m ∈ c.file.methods, m.isStatic = true → ∃ sig, c.methodSig m = .ok sig ∧
    ((sig.name, sig.descriptor) = key → c.file.methodKey m = .ok key ∧ P)

theorem Statics.step {P : Prop} (h : c.Statics key P) (hrun : c.runEdit op.step = (.ok (), c'))
    (hadds : ∀ flags name descriptor, op.added? = some (flags, name, descriptor) →
      AccessFlags.has flags AccessFlags.isStatic = true →
        (∃ params ret, descriptor = methodDescriptor params ret ∧
          parseMethodDescriptor descriptor = .ok (params, ret)) ∧
        ((name, descriptor) = key → P)) (hindexable : c'.file.pool.Indexable) :
    c'.Statics key P := by
  have hkeeps := KeepsMembers.of_step hrun
  intro m' hm' hstatic
  obtain ⟨m, hm, hhead⟩ | ⟨flags, name, descriptor, hop, hnew⟩ := head_of_step hrun hm'
  · obtain ⟨sig, hsig, hown⟩ := h m hm ((MemberInfo.isStatic_of_head hhead).symm.trans hstatic)
    refine ⟨sig, methodSig_keep hkeeps hhead hsig, fun hsame => ?_⟩
    obtain ⟨hkey, hP⟩ := hown hsame
    rw [ClassFile.methodKey_of_head hhead]
    exact ⟨ClassFile.methodKey_grows hkeeps.pool m key hkey, hP⟩
  · obtain ⟨rfl, hkey⟩ := hnew hindexable
    obtain ⟨⟨params, ret, rfl, htypes⟩, hown⟩ := hadds _ _ _ hop hstatic
    refine ⟨{ owner := c'.name, name, params, ret, flags := m'.flags },
      methodSig_eq_ok.mpr ⟨_, hkey, htypes, rfl, rfl⟩, ?_⟩
    intro hsame
    obtain rfl : (name, methodDescriptor params ret) = key := hsame
    exact ⟨hkey, hown rfl⟩

/-- A static method that is shown is the first one of its key. -/
theorem Statics.firstOf {P : Prop} (h : c.Statics (name, methodDescriptor params ret) P)
    (hsig : parseMethodDescriptor (methodDescriptor params ret) = .ok (params, ret))
    {sig : MethodSig} (hfound : c.method? name (methodDescriptor params ret) = .ok (some sig))
    (hstatic : sig.isStatic = true) :
    ∃ i m, c.file.FirstOf (name, methodDescriptor params ret) i m ∧ m.isStatic = true ∧ P := by
  obtain ⟨sigs, hsigs, hfind⟩ := of_method? hfound
  obtain ⟨hlength, hshown⟩ := List.forall₂_iff_get.mp hsigs
  obtain ⟨hwanted, i, hi, rfl, hbefore⟩ := List.find?_eq_some_iff_getElem.mp hfind.symm
  have hlt : i < c.file.methods.length := hlength ▸ hi
  have hsigAt := hshown i hlt hi
  simp only [List.get_eq_getElem] at hshown hsigAt
  obtain ⟨d, hkey, htypes, -, hflags⟩ := methodSig_eq_ok.mp hsigAt
  have hmStatic : c.file.methods[i].isStatic = true := by
    rw [MemberInfo.isStatic, ← hflags]
    exact hstatic
  obtain ⟨hname, hdescriptor⟩ : sigs[i].name = name ∧
      sigs[i].descriptor = methodDescriptor params ret := by simpa using hwanted
  obtain ⟨sig', hsig', hown⟩ := h _ (List.getElem_mem hlt) hmStatic
  obtain rfl := Except.ok.inj (hsigAt.symm.trans hsig')
  obtain ⟨hown, hP⟩ := hown (by rw [hname, hdescriptor])
  refine ⟨i, _, ⟨List.getElem?_eq_getElem hlt, hown, fun b hb => ?_⟩, hmStatic, hP⟩
  -- A method of the key shows the key, so it would have been found.
  obtain ⟨j, hj, rfl⟩ := List.mem_take_iff_getElem.mp hb
  obtain ⟨other, hother, hread, -⟩ := methodSig_eq_ok.mp (hshown j (by omega) (by omega))
  refine ⟨_, hother, fun hsame => ?_⟩
  obtain ⟨hothername, rfl⟩ := Prod.mk.inj hsame
  obtain ⟨hparams, hret⟩ := Prod.mk.inj (Except.ok.inj (hread.symm.trans hsig))
  have hnot := hbefore j (by omega)
  rw [MethodSig.descriptor, hparams, hret, hothername] at hnot
  simp at hnot

/-- The first method of the key is static. -/
def HasStatic (c : ClassUnit) (key : String × String) : Prop :=
  ∃ i m, c.file.FirstOf key i m ∧ m.isStatic = true

theorem HasStatic.keep (h : c.HasStatic key) (hto : KeepsHeads c c') : c'.HasStatic key := by
  obtain ⟨i, m, hfirst, hstatic⟩ := h
  obtain ⟨m', hfirst', hhead⟩ := hfirst.keep hto.pool hto.methods
  exact ⟨i, m', hfirst', (MemberInfo.isStatic_of_head hhead).trans hstatic⟩

/-! ## Methods that make instances -/

/-- The first method of the key is static, and each of its returns gives a new object, made by a
constructor of the implementation from all arguments. -/
def MakesInstances (c : ClassUnit) (key : String × String) (implementation : TypeName)
    (params : List TypeName) (ret : TypeName) : Prop :=
  ∃ i m code, c.file.FirstOf key i m ∧ m.isStatic = true ∧ m.HasCode c.file.pool code ∧
    code.Short ∧ code.ReturnsAt
      (Creates c.file.pool implementation 0 params ret.returnOpcode) ret.returnOpcode

variable {implementation : TypeName}

/-- What the method makes does not depend on the rest of the class. -/
theorem MakesInstances.keep (h : c.MakesInstances key implementation params ret)
    (hto : KeepsHeads c c')
    (hsame : ∀ i m, c.file.FirstOf key i m → c'.file.methods[i]? = some m) :
    c'.MakesInstances key implementation params ret := by
  obtain ⟨i, m, code, hfirst, hstatic, hcode, hshort, hreturns⟩ := h
  obtain ⟨m', hfirst', -⟩ := hfirst.keep hto.pool hto.methods
  obtain rfl := Option.some.inj (hfirst'.here.symm.trans (hsame i m hfirst))
  exact ⟨i, m', code, hfirst', hstatic, hcode.grows hto.pool, hshort,
    hreturns.mono fun _ his => his.grows hto.pool⟩

/-- A method whose code can be edited has the code that is edited, and its signature. -/
theorem code_of_existing {m : ExistingMethod}
    (h : (existing name descriptor).run.run c = (.ok m, c')) :
    m.info.code c.file.pool = .ok (some m.code) ∧
      ∃ params ret, parseMethodDescriptor descriptor = .ok (params, ret) ∧
        m.context = methodContext c.name m.info.flags name params ret := by
  obtain ⟨_, _, hget, hcheck⟩ := of_run_bind_ok h
  obtain ⟨rfl, rfl⟩ := of_run_get_ok hget
  obtain ⟨_, _, hcompiled, hmatch⟩ := of_run_bind_ok hcheck
  obtain ⟨-, rfl⟩ := of_run_lift_ok hcompiled
  split at hmatch
  · exact absurd hmatch not_run_throw_ok
  obtain ⟨code?, _, hcode, hmatch⟩ := of_run_bind_ok hmatch
  obtain ⟨hfound, rfl⟩ := of_run_lift_ok hcode
  split at hmatch
  · exact absurd hmatch not_run_throw_ok
  obtain ⟨⟨params, ret⟩, _, htypes, hend⟩ := of_run_bind_ok hmatch
  obtain ⟨hparsed, rfl⟩ := of_run_lift_ok htypes
  obtain ⟨hm, rfl⟩ := Prod.mk.inj hend
  obtain rfl := Except.ok.inj hm
  exact ⟨Checked.mapError_eq_ok.mp hfound, params, ret, Checked.mapError_eq_ok.mp hparsed, rfl⟩

/-- Code that is read is that of the code attribute. -/
theorem exists_parse {m : MemberInfo} {pool : ConstantPool} {read : CodeAttribute}
    (h : m.code pool = .ok (some read)) :
    ∃ a, m.attributes.find? (MemberInfo.isCode pool) = some a ∧
      CodeAttribute.parse a.info = .ok read := by
  cases hfind : m.attributes.find? (MemberInfo.isCode pool) with
  | none =>
    rw [MemberInfo.code, hfind] at h
    cases h
  | some a =>
    rw [MemberInfo.code, hfind] at h
    obtain ⟨read', hparse, hsome⟩ := Checked.map_eq_ok.mp h
    exact ⟨a, rfl, hparse.trans (congrArg Except.ok (Option.some.inj hsome))⟩

/-- The code that a method holds is the code that is read. -/
theorem parse_of_hasCode {m : MemberInfo} {pool : ConstantPool} {code read : CodeAttribute}
    (h : m.HasCode pool code) (hread : m.code pool = .ok (some read)) :
    CodeAttribute.parse code.toBytes = .ok read := by
  obtain ⟨a, ha, hinfo⟩ := h
  obtain ⟨a', ha', hparse⟩ := exists_parse hread
  obtain rfl := Option.some.inj (ha.symm.trans ha')
  rwa [← hinfo]

/-- Guards of the method leave its returns as they are. -/
theorem MakesInstances.insertBefore {gs : List Stmt}
    (h : c.MakesInstances (name, descriptor) implementation params ret)
    (hgs : ∀ s ∈ gs, Synthesis.IsGuard s)
    (hrun : c.runEdit (ClassUnit.insertBefore name descriptor gs) = (.ok (), c')) :
    c'.MakesInstances (name, descriptor) implementation params ret := by
  have hstep : c.runEdit (ClassOp.insertBefore name descriptor gs).step = (.ok (), c') := hrun
  have hto := KeepsHeads.of_step hstep
  obtain ⟨i, m, code, hfirst, hstatic, hcode, hshort, hreturns⟩ := h
  obtain ⟨m₀, emitted, fragment, entry, withFrames, pool, patched, hexisting, hemit, hfragment,
    hgrows, hpatch, hmethods⟩ := of_insertBefore hrun
  obtain ⟨-, hposition, hhere, hany, -⟩ := of_existing hexisting
  obtain rfl : m₀.position = i :=
    Option.some.inj (hposition.symm.trans hfirst.methodPosition?)
  obtain rfl : m₀.info = m := Option.some.inj (hhere.symm.trans hfirst.here)
  have hread := parse_of_hasCode hcode (code_of_existing hexisting).1
  obtain ⟨hold, holdShort⟩ := hreturns.of_parse hshort hread
  obtain ⟨hnew, hnewShort⟩ := hold.insertPrologue hfragment holdShort.handlers
    (fun _ his => his.labels) (Synthesis.opcode_ne_of_guards hgs hemit hfragment ret) hpatch
  obtain ⟨m', hfirst', hhead⟩ := hfirst.keep hto.pool hto.methods
  have hlt := (List.getElem?_eq_some_iff.mp hhere).1
  obtain rfl := Option.some.inj (hfirst'.here.symm.trans (by
    rw [hmethods, List.getElem?_set_self hlt]))
  exact ⟨_, _, patched, hfirst', (MemberInfo.isStatic_of_head hhead).trans hstatic,
    (MemberInfo.hasCode_replaceInfo hany).grows hto.pool, hnewShort,
    hnew.mono fun _ his => his.grows hto.pool⟩

/-- An operation on another method, and guards of the method itself, leave what it makes. -/
theorem MakesInstances.step (h : c.MakesInstances key implementation params ret)
    (hrun : c.runEdit op.step = (.ok (), c'))
    (htarget : op.target? = some key →
      ∃ gs, op = .insertBefore key.1 key.2 gs ∧ ∀ s ∈ gs, Synthesis.IsGuard s) :
    c'.MakesInstances key implementation params ret := by
  by_cases hop : op.target? = some key
  · obtain ⟨gs, rfl, hgs⟩ := htarget hop
    exact h.insertBefore hgs hrun
  refine h.keep (.of_step hrun) fun i m hfirst => ?_
  cases methodsChange_of_step hrun with
  | same hmethods => rw [hmethods, hfirst.here]
  | added m _ hmethods =>
    rw [hmethods, List.getElem?_append_left (List.getElem?_eq_some_iff.mp hfirst.here).1,
      hfirst.here]
  | @code name descriptor position _ info hcode hposition _ _ hmethods =>
    have hne : position ≠ i := by
      rintro rfl
      obtain ⟨hlt, hmember, -⟩ := List.findIdx?_eq_some_iff_getElem.mp hposition
      have hkey := ClassFile.isMember_iff.mp hmember
      rw [(List.getElem?_eq_some_iff.mp hfirst.here).2] at hkey
      obtain rfl := Except.ok.inj (hfirst.hasKey.symm.trans hkey)
      exact hop hcode
    rw [hmethods, List.getElem?_set_ne hne, hfirst.here]

/-! ## Binding -/

open ClassSynth.Action (makeInstance bindFactory)

/-- A static method that returns something has the result that it declares, and no receiver. -/
theorem methodContext_of_static {owner : TypeName} {flags : UInt16}
    (hstatic : AccessFlags.has flags AccessFlags.isStatic = true)
    (hvoid : (methodContext owner flags name params ret).ret.isVoid = false) :
    (methodContext owner flags name params ret).ret = ret ∧
      (methodContext owner flags name params ret).receiverSlots = 0 := by
  refine ⟨?_, if_pos hstatic⟩
  unfold methodContext at hvoid ⊢
  split_ifs at hvoid ⊢
  · cases hvoid
  · rfl

/-- A factory that is added makes instances. -/
theorem makesInstances_addMethod {flags : UInt16}
    (h : c.runEdit (addMethod flags name params ret (makeInstance implementation params))
      = (.ok (), c'))
    (hstatic : AccessFlags.has flags AccessFlags.isStatic = true)
    (hkeys : ∀ m ∈ c.file.methods, ∃ key, c.file.methodKey m = .ok key)
    (hindexable : c'.file.pool.Indexable) :
    c'.MakesInstances (name, methodDescriptor params ret) implementation params ret := by
  obtain ⟨emitted, m, hemit, hgrows, hnew, hmethods, hparts⟩ := code_of_addMethod h
  obtain ⟨rfl, hkey, attributes, hcode⟩ := hparts hindexable
  have hstep : c.runEdit (ClassOp.addMethod m.flags name params ret
    (makeInstance implementation params)).step = (.ok (), c') := h
  have hpool := (KeepsMembers.of_step hstep).pool
  obtain ⟨hvoid, is, hencode, hfits, hlabels, hcreates⟩ := Emit.creates_of_emitMethod hemit
  obtain ⟨hret, hslots⟩ := methodContext_of_static hstatic hvoid
  have hsite := hcreates c'.file.pool hgrows hindexable
  rw [hret, hslots] at hsite
  obtain ⟨hreturns, hshort⟩ :=
    CodeAttribute.returnsAt_of_encode
      (c := { maxStack := emitted.maxStack, maxLocals := emitted.maxLocals, code := emitted.code
              attributes }) hencode hfits hlabels hsite rfl
  have hhere : c'.file.methods[c.file.methods.length]? = some m := by
    rw [hmethods, List.getElem?_append_right le_rfl, Nat.sub_self, List.getElem?_cons_zero]
  refine ⟨c.file.methods.length, m, _, ⟨hhere, hkey, fun b hb => ?_⟩, hstatic, hcode, hshort,
    hreturns⟩
  rw [hmethods, List.take_left] at hb
  obtain ⟨other, hother⟩ := hkeys b hb
  refine ⟨other, ClassFile.methodKey_grows hpool b other hother, ?_⟩
  rintro rfl
  exact methodKey_ne_of_hasMethod hnew b hb hother

/-- A static method whose returns are replaced makes instances. -/
theorem makesInstances_replaceReturns {i : Nat} {m : MemberInfo}
    (h : c.runEdit (replaceReturns name descriptor (makeInstance implementation params))
      = (.ok (), c'))
    (hsig : parseMethodDescriptor descriptor = .ok (params, ret))
    (hfirst : c.file.FirstOf (name, descriptor) i m) (hstatic : m.isStatic = true)
    (hindexable : c'.file.pool.Indexable) :
    c'.MakesInstances (name, descriptor) implementation params ret := by
  have hstep : c.runEdit (ClassOp.replaceReturns name descriptor
    (makeInstance implementation params)).step = (.ok (), c') := h
  have hto := KeepsHeads.of_step hstep
  have hrun := h
  rw [replaceReturns_eq] at hrun
  obtain ⟨m₀, _, hexisting, hguards⟩ := of_run_bind_ok hrun
  obtain ⟨hsame, hposition, hhere, hany, -⟩ := of_existing hexisting
  obtain rfl := hsame.symm
  obtain ⟨hread, params', ret', hsig', hcontext⟩ := code_of_existing hexisting
  obtain ⟨rfl, rfl⟩ := Prod.mk.inj (Except.ok.inj (hsig'.symm.trans hsig))
  obtain rfl : m₀.position = i :=
    Option.some.inj (hposition.symm.trans hfirst.methodPosition?)
  obtain rfl : m₀.info = m := Option.some.inj (hhere.symm.trans hfirst.here)
  obtain ⟨-, hwide⟩ := of_run_guard_ok (fun _ _ _ => not_run_throw_ok) hguards
  obtain ⟨-, hpatch⟩ := of_run_guard_ok (fun _ _ _ => not_run_throw_ok) hwide
  obtain ⟨emitted, fragment, entry, withFrames, pool, c₁, patched, hemit, hfragment, hgrows, hedit,
    henlarged, hput⟩ := code_of_patch (grows_emitMethod m₀.context _)
      (fun _ _ _ => m₀.code.keeps_edit _ _ _) hpatch
  obtain rfl := of_putCode henlarged hany hput
  rw [hcontext] at hemit hgrows hedit
  obtain ⟨hvoid, is, hencode, hfits, hlabels, hcreates⟩ := Emit.creates_of_emitMethod hemit
  obtain ⟨hret, hslots⟩ := methodContext_of_static hstatic hvoid
  have hpool : pool.Grows c₁.file.pool := (m₀.code.keeps_edit _ _ _).of_run hedit
  have hsite := hcreates c₁.file.pool (hgrows.trans hpool) hindexable
  have hcode : fragment.code = is := Fragment.code_of_encode hfits hencode
    (fun i hi l hl => by rw [hlabels i hi] at hl; cases hl) hfragment
  rw [hret, hslots, ← hcode] at hsite
  rw [hret] at hedit
  obtain ⟨_, -, hparse⟩ := exists_parse hread
  have hpop : Opcode.pop ≠ ret'.returnOpcode :=
    Instruction.opcode_ne_of_not_returns (i := .simple Opcode.pop) rfl ret'
  obtain ⟨hreturns, hshort⟩ := CodeAttribute.returnsAt_replaceReturns hfragment
    (CodeAttribute.handlers_of_parse hparse) hsite (hcode ▸ hlabels) hpop hedit
  obtain ⟨m', hfirst', hhead⟩ := hfirst.keep hto.pool hto.methods
  have hlt := (List.getElem?_eq_some_iff.mp hhere).1
  obtain rfl := Option.some.inj (hfirst'.here.symm.trans (by
    rw [henlarged.methods, List.getElem?_set_self hlt]))
  exact ⟨_, _, patched, hfirst', hstatic, (MemberInfo.hasCode_replaceInfo hany).grows hto.pool,
    hshort, hreturns⟩

theorem MakesInstances.hasStatic (h : c.MakesInstances key implementation params ret) :
    c.HasStatic key := by
  obtain ⟨i, m, _, hfirst, hstatic, -⟩ := h
  exact ⟨i, m, hfirst, hstatic⟩

/-- **Factories are bound.** After a factory was bound, the class has a static method of its key.
If its returns are to be replaced, or it was not there before, it makes instances. -/
theorem binds_bindFactory {p : FactoryPlan} {location : TypeName} {changed : Bool} {P : Prop}
    (h : c.runEdit (bindFactory p location implementation) = (.ok changed, c'))
    (hsig : parseMethodDescriptor (methodDescriptor p.params p.sourceType)
      = .ok (p.params, p.sourceType))
    (hstatics : c.Statics (p.directive.method, methodDescriptor p.params p.sourceType) P)
    (hindexable : c'.file.pool.Indexable) :
    c'.HasStatic (p.directive.method, methodDescriptor p.params p.sourceType) ∧
      (p.directive.overrideReturn = true ∨ ¬ P →
        c'.MakesInstances (p.directive.method, methodDescriptor p.params p.sourceType)
          implementation p.params p.sourceType) := by
  obtain ⟨_, _, hget, hcompiled⟩ := of_run_bind_ok h
  obtain ⟨rfl, rfl⟩ := of_run_get_ok hget
  obtain ⟨_, _, hlift, hfind⟩ := of_run_bind_ok hcompiled
  obtain ⟨-, rfl⟩ := of_run_lift_ok hlift
  obtain ⟨found, _, hlift, hrest⟩ := of_run_bind_ok hfind
  obtain ⟨hfound, rfl⟩ := of_run_lift_ok hlift
  cases found with
  | none =>
    obtain ⟨_, _, hadd, hreturn⟩ := of_run_bind_ok hrest
    obtain ⟨-, rfl⟩ := Prod.mk.inj hreturn
    have hkeys : ∀ m ∈ c.file.methods, ∃ key, c.file.methodKey m = .ok key := fun m hm =>
      (lacks_of_method? hsig hfound m hm).imp fun _ hkey => hkey.1
    have hmakes := makesInstances_addMethod hadd (by decide) hkeys hindexable
    exact ⟨hmakes.hasStatic, fun _ => hmakes⟩
  | some sig =>
    dsimp only at hrest
    split_ifs at hrest with hinstance hoverride
    · exact absurd hrest not_run_throw_ok
    · obtain ⟨_, _, hreplace, hreturn⟩ := of_run_bind_ok hrest
      obtain ⟨-, rfl⟩ := Prod.mk.inj hreturn
      obtain ⟨i, m, hfirst, hstatic, -⟩ := hstatics.firstOf hsig hfound (by simpa using hinstance)
      have hmakes := makesInstances_replaceReturns hreplace hsig hfirst hstatic hindexable
      exact ⟨hmakes.hasStatic, fun _ => hmakes⟩
    · obtain ⟨-, rfl⟩ := Prod.mk.inj hrest
      obtain ⟨i, m, hfirst, hstatic, hP⟩ :=
        hstatics.firstOf hsig hfound (by simpa using hinstance)
      exact ⟨⟨i, m, hfirst, hstatic⟩, fun hcond => absurd hP (hcond.resolve_left hoverride)⟩

end ClassUnit

end ClassSynth
