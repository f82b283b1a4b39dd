import ClassSynth.Proofs.ClassUnit.Operations

/-!
# What operations keep of a class

Operations on a class may fail, and what they added to the constants until then stays. Along every
sequence of operations, the keys of the members stay unique and every constant keeps its index; an
operation that fails changes nothing but constants, and one that patches a method changes nothing
else but the contents of its code attribute (`orderly_of_operations`).

A member whose name is not in the pool could come to have any name, so the keys of the members have
to exist. That no attribute but the patched one changes rests on the pool: it holds the name of code
attributes already, and it never adds a constant twice.
-/

namespace ClassSynth

/-! ## Unique keys -/

/-- The members have keys, and no two of them have the same. -/
def UniqueKeys {κ : Type} (key : MemberInfo → Except ClassFormatError κ)
    (members : List MemberInfo) : Prop :=
  ∃ keys, members.mapM key = .ok keys ∧ keys.Nodup

namespace UniqueKeys

variable {κ : Type} {key key' : MemberInfo → Except ClassFormatError κ} {members : List MemberInfo}

theorem mono (hkeys : ∀ m k, key m = .ok k → key' m = .ok k) (h : UniqueKeys key members) :
    UniqueKeys key' members := by
  obtain ⟨keys, hkeysOk, hnodup⟩ := h
  rw [Checked.mapM_eq_ok] at hkeysOk
  exact ⟨keys, Checked.mapM_eq_ok.mpr (hkeysOk.imp hkeys), hnodup⟩

/-- One more member, with a key that no other had. -/
theorem append (h : UniqueKeys key members) (hkeys : ∀ m k, key m = .ok k → key' m = .ok k)
    {m : MemberInfo} {k : κ} (hm : key' m = .ok k) (hnew : ∀ m' ∈ members, key m' ≠ .ok k) :
    UniqueKeys key' (members ++ [m]) := by
  obtain ⟨keys, hkeysOk, hnodup⟩ := h
  rw [Checked.mapM_eq_ok] at hkeysOk
  refine ⟨keys ++ [k], ?_, ?_⟩
  · rw [Checked.mapM_eq_ok]
    exact List.rel_append (hkeysOk.imp hkeys) (.cons hm .nil)
  · refine List.nodup_append'.mpr ⟨hnodup, List.nodup_singleton k, ?_⟩
    rw [List.disjoint_singleton]
    intro hk
    obtain ⟨m', hm', hkey⟩ := Checked.exists_of_mem_right hkeysOk hk
    exact hnew m' hm' hkey

/-- Another member in the place of one with the same key. -/
theorem set {m m' : MemberInfo} {i : Nat} (h : UniqueKeys key members)
    (hm : members[i]? = some m) (hkey : key m' = key m) : UniqueKeys key (members.set i m') := by
  have hsame : ∀ ms : List MemberInfo, ms.mapM key = (ms.map key).mapM id :=
    fun ms => (List.mapM_map (f := key) (g := id)).symm
  obtain ⟨keys, hkeys, hnodup⟩ := h
  refine ⟨keys, ?_, hnodup⟩
  rw [hsame, ClassUnit.map_set_of_eq hm hkey, ← hsame, hkeys]

end UniqueKeys

namespace ClassFile

/-- The key of a method: its name and its descriptor. -/
def methodKey (f : ClassFile) (m : MemberInfo) : Except ClassFormatError (String × String) := do
  return (← f.pool.utf8 m.name, ← f.pool.utf8 m.descriptor)

/-- No two fields have the same name, and no two methods the same name and descriptor. -/
structure HasUniqueKeys (f : ClassFile) : Prop where
  fields : UniqueKeys (fun m => f.pool.utf8 m.name) f.fields
  methods : UniqueKeys f.methodKey f.methods

theorem methodKey_eq_ok {f : ClassFile} {m : MemberInfo} {name descriptor : String} :
    f.methodKey m = .ok (name, descriptor) ↔
      f.pool.utf8 m.name = .ok name ∧ f.pool.utf8 m.descriptor = .ok descriptor := by
  simp only [methodKey, Checked.bind_eq_ok, Checked.pure_eq_ok, Prod.mk.injEq]
  constructor
  · rintro ⟨_, hname, _, hdescriptor, rfl, rfl⟩
    exact ⟨hname, hdescriptor⟩
  · rintro ⟨hname, hdescriptor⟩
    exact ⟨name, hname, descriptor, hdescriptor, rfl, rfl⟩

/-- Constants that are added do not change the key of a method. -/
theorem methodKey_grows {f f' : ClassFile} (h : f.pool.Grows f'.pool) (m : MemberInfo)
    (key : String × String) (hkey : f.methodKey m = .ok key) : f'.methodKey m = .ok key := by
  obtain ⟨hname, hdescriptor⟩ := methodKey_eq_ok.mp hkey
  exact methodKey_eq_ok.mpr ⟨h.utf8 hname, h.utf8 hdescriptor⟩

end ClassFile

namespace ClassUnit

variable {c c₁ c' : ClassUnit} {op : ClassOp}

theorem utf8_ne_of_hasField {name : String} (h : c.hasField name = false) :
    ∀ m ∈ c.file.fields, c.file.pool.utf8 m.name ≠ .ok name := by
  intro m hm hname
  rw [hasField, ClassFile.fieldPosition?, List.findIdx?_isSome] at h
  exact List.any_eq_false.mp h m hm (hasText_iff.mpr (ConstantPool.utf8_eq_ok.mp hname))

theorem methodKey_ne_of_hasMethod {name descriptor : String}
    (h : c.hasMethod name descriptor = false) :
    ∀ m ∈ c.file.methods, c.file.methodKey m ≠ .ok (name, descriptor) := by
  intro m hm hkey
  obtain ⟨hname, hdescriptor⟩ := ClassFile.methodKey_eq_ok.mp hkey
  rw [hasMethod, ClassFile.methodPosition?, List.findIdx?_isSome] at h
  refine List.any_eq_false.mp h m hm ?_
  rw [ClassFile.isMember, Bool.and_eq_true]
  exact ⟨hasText_iff.mpr (ConstantPool.utf8_eq_ok.mp hname),
    hasText_iff.mpr (ConstantPool.utf8_eq_ok.mp hdescriptor)⟩

theorem Enlarged.hasUniqueKeys (h : Enlarged c c') (hkeys : c.file.HasUniqueKeys) :
    c'.file.HasUniqueKeys where
  fields := by
    rw [h.fields]
    exact hkeys.fields.mono fun m k => h.pool.utf8
  methods := by
    rw [h.methods]
    exact hkeys.methods.mono (ClassFile.methodKey_grows h.pool)

/-- A successful operation keeps the keys unique. -/
theorem Change.hasUniqueKeys {file : ClassFile} (h : Change c c₁.file op file)
    (hc : Enlarged c c₁) (hkeys : c.file.HasUniqueKeys) (hindexable : file.pool.Indexable) :
    file.HasUniqueKeys := by
  have hold := hc.hasUniqueKeys hkeys
  cases h with
  | header superClass interfaces hop => exact ⟨hold.fields, hold.methods⟩
  | field m hop hnew hname =>
    refine ⟨?_, hold.methods⟩
    have hkey : ∀ (m : MemberInfo) k, c.file.pool.utf8 m.name = .ok k →
        c₁.file.pool.utf8 m.name = .ok k := fun m k => hc.pool.utf8
    have hfields := hkeys.fields.append hkey (hname hindexable) (utf8_ne_of_hasField hnew)
    rwa [← hc.fields] at hfields
  | method m hop hnew hkey =>
    refine ⟨hold.fields, ?_⟩
    have hmethods := hkeys.methods.append (ClassFile.methodKey_grows hc.pool)
      (ClassFile.methodKey_eq_ok.mpr (hkey hindexable)) (methodKey_ne_of_hasMethod hnew)
    rwa [← hc.methods] at hmethods
  | code m position info hop hposition hmethod hcode =>
    exact ⟨hold.fields, hold.methods.set (m := m) (hc.methods ▸ hmethod) rfl⟩

/-! ## What one operation does -/

/-- Only the contents of the code attribute of a method differ, constants aside. -/
def OnlyCodeDiffers (name descriptor : String) (c c' : ClassUnit) : Prop :=
  ∃ position m before code after info,
    c.file.methodPosition? name descriptor = some position ∧
    c.file.methods[position]? = some m ∧
    m.attributes = before ++ code :: after ∧
    MemberInfo.isCode c.file.pool code = true ∧
    (∀ a ∈ before, MemberInfo.isCode c.file.pool a = false) ∧
    c' = { c with file := { c.file with
      pool := c'.file.pool
      methods := c.file.methods.set position
        { m with attributes := before ++ { code with info } :: after } } }

/-- New content for the first attribute that satisfies the test. -/
theorem exists_replaceInfo {isWanted : Attribute → Bool} {info : Bytes} {as : List Attribute}
    (h : as.any isWanted = true) :
    ∃ before a after, as = before ++ a :: after ∧ isWanted a = true ∧
      (∀ b ∈ before, isWanted b = false) ∧
      MemberInfo.replaceInfo isWanted info as = before ++ { a with info } :: after := by
  induction as with
  | nil => cases h
  | cons a as ih =>
    by_cases ha : isWanted a = true
    · exact ⟨[], a, as, rfl, ha, List.forall_mem_nil _, if_pos ha⟩
    · rw [List.any_cons, Bool.eq_false_iff.mpr ha, Bool.false_or] at h
      obtain ⟨before, b, after, rfl, hb, hbefore, hreplace⟩ := ih h
      refine ⟨a :: before, b, after, rfl, hb, ?_, ?_⟩
      · intro b' hb'
        rcases List.mem_cons.mp hb' with rfl | hb'
        · exact Bool.eq_false_iff.mpr ha
        · exact hbefore b' hb'
      · rw [MemberInfo.replaceInfo, if_neg ha, hreplace]
        rfl

/-- What an operation does to a class with unique keys. -/
structure Orderly (c : ClassUnit) (op : ClassOp) : Prop where
  keys : (c.runEdit op.step).2.file.HasUniqueKeys
  /-- Constants are appended. -/
  appended : c.file.pool.slots.toList <+: (c.runEdit op.step).2.file.pool.slots.toList
  /-- Each index keeps its constant. -/
  constants : ∀ index k, c.file.pool.get? index = some k →
    (c.runEdit op.step).2.file.pool.get? index = some k
  failed : ∀ e, (c.runEdit op.step).1 = .error e →
    (c.runEdit op.step).2 =
      { c with file := { c.file with pool := (c.runEdit op.step).2.file.pool } }
  patched : ∀ name descriptor, op.target? = some (name, descriptor) →
    (c.runEdit op.step).1 = .ok () → OnlyCodeDiffers name descriptor c (c.runEdit op.step).2

theorem Change.onlyCodeDiffers {file : ClassFile} {name descriptor : String}
    (h : Change c c₁.file op file) (hc : Enlarged c c₁)
    (hop : op.target? = some (name, descriptor)) :
    OnlyCodeDiffers name descriptor c { c₁ with file } := by
  cases h with
  | header superClass interfaces hother =>
    rw [hother] at hop
    cases hop
  | field m hother hnew hname =>
    rw [hother] at hop
    cases hop
  | method m hother hnew hkey =>
    rw [hother] at hop
    cases hop
  | code m position info htarget hposition hmethod hcode =>
    obtain ⟨rfl, rfl⟩ := Prod.mk.inj (Option.some.inj (hop.symm.trans htarget))
    obtain ⟨before, code, after, hattributes, ha, hbefore, hreplace⟩ := exists_replaceInfo hcode
    refine ⟨position, m, before, code, after, info, hposition, hmethod, hattributes, ha,
      hbefore, ?_⟩
    rw [hreplace, hc.rest]

theorem grows_runEdit (c : ClassUnit) (op : ClassOp) :
    c.file.pool.Grows (c.runEdit op.step).2.file.pool := by
  rcases hrun : c.runEdit op.step with ⟨result, c'⟩
  cases result with
  | error e => exact (failsWithin_step op c e c' hrun).pool
  | ok u =>
    obtain ⟨c₁, file, hc, rfl, hchange⟩ := of_step hrun
    exact hchange.pool ▸ hc.pool

/-- One operation, whether it fails or not. -/
theorem orderly (hkeys : c.file.HasUniqueKeys)
    (hindexable : (c.runEdit op.step).2.file.pool.Indexable) : Orderly c op := by
  have hgrows := grows_runEdit c op
  rcases hrun : c.runEdit op.step with ⟨result, c'⟩
  rw [hrun] at hindexable
  cases result with
  | error e =>
    have hto := failsWithin_step op c e c' hrun
    exact {
      keys := by rw [hrun]; exact hto.hasUniqueKeys hkeys
      appended := hgrows.slots
      constants := fun _ _ => hgrows.get?
      failed := by rw [hrun]; exact fun _ _ => hto.rest
      patched := by
        intro _ _ _ hok
        rw [hrun] at hok
        cases hok }
  | ok u =>
    obtain ⟨c₁, file, hc, rfl, hchange⟩ := of_step hrun
    exact {
      keys := by rw [hrun]; exact hchange.hasUniqueKeys hc hkeys hindexable
      appended := hgrows.slots
      constants := fun _ _ => hgrows.get?
      failed := by
        intro _ herror
        rw [hrun] at herror
        cases herror
      patched := by rw [hrun]; exact fun _ _ hop _ => hchange.onlyCodeDiffers hc hop }

/-! ## Sequences -/

/-- The class after operations, of which some may have failed. -/
def after (c : ClassUnit) (ops : List ClassOp) : ClassUnit :=
  ops.foldl (fun c op => (c.runEdit op.step).2) c

theorem grows_after (c : ClassUnit) (ops : List ClassOp) :
    c.file.pool.Grows (c.after ops).file.pool := by
  induction ops generalizing c with
  | nil => exact ConstantPool.Grows.refl _
  | cons op ops ih => exact (grows_runEdit c op).trans (ih (c.runEdit op.step).2)

/-- Along operations on a class with unique keys, all states have unique keys, and each operation
keeps what it is not to change. -/
theorem orderly_of_operations {ops done rest : List ClassOp} (hkeys : c.file.HasUniqueKeys)
    (hindexable : (c.after ops).file.pool.Indexable) (hops : ops = done ++ op :: rest) :
    (c.after done).file.HasUniqueKeys ∧ Orderly (c.after done) op := by
  subst hops
  induction done generalizing c with
  | nil =>
    have hrest := (grows_after (c.runEdit op.step).2 rest).indexable hindexable
    exact ⟨hkeys, orderly hkeys hrest⟩
  | cons first done ih =>
    have hfirst := (grows_after (c.runEdit first.step).2 (done ++ op :: rest)).indexable hindexable
    exact ih (orderly hkeys hfirst).keys hindexable

/-- A failed prologue between the addition of a field and the removal of the superclass. -/
theorem orderly_of_operations_failed :
    ∃ c : ClassUnit, c.file.HasUniqueKeys ∧
      (c.after [.addField 1 "x" .int, .insertBefore "m" "()V" [],
        .clearSuperclass]).file.pool.Indexable ∧
      ((c.after [.addField 1 "x" .int]).runEdit (ClassOp.insertBefore "m" "()V" []).step).1 =
        .error (.missingSymbol "A.m()V") ∧
      (c.after [.addField 1 "x" .int]).file.fields.length = 1 ∧
      (c.after [.addField 1 "x" .int]).file.HasUniqueKeys ∧
      Orderly (c.after [.addField 1 "x" .int]) (.insertBefore "m" "()V" []) := by
  let c : ClassUnit :=
    { name := ⟨"A"⟩
      file := { major := 50, pool := .empty, flags := 1, thisClass := 0, superClass := 0 } }
  have hkeys : c.file.HasUniqueKeys := ⟨⟨[], rfl, .nil⟩, ⟨[], rfl, .nil⟩⟩
  have hindexable : (c.after [.addField 1 "x" .int, .insertBefore "m" "()V" [],
      .clearSuperclass]).file.pool.Indexable := by
    have hpool : (c.after [.addField 1 "x" .int, .insertBefore "m" "()V" [],
        .clearSuperclass]).file.pool =
        ((ConstantPool.empty.add (.utf8 "x")).2.add (.utf8 "I")).2 := rfl
    have hfirst := ConstantPool.empty.size_add_le (.utf8 "x")
    have hsecond := (ConstantPool.empty.add (.utf8 "x")).2.size_add_le (.utf8 "I")
    have hempty : ConstantPool.empty.slots.size = 0 := rfl
    rw [hpool, ConstantPool.Indexable]
    omega
  exact ⟨c, hkeys, hindexable, rfl, rfl,
    orderly_of_operations hkeys hindexable (show _ = [_] ++ _ :: [_] from rfl)⟩

end ClassUnit

end ClassSynth
