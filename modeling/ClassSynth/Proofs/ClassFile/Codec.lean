import ClassSynth.ClassUnit.Edit
import ClassSynth.Proofs.ConstantPool.Codec

/-!
# The bytes of class files

A class file is read back from its bytes, as long as its counts and lengths fit into their fields,
and the bytes of a class file that was read are those that were read, if its texts are canonical and
its constants are counted exactly. Together these are the two laws of the class file codec; the code
attribute of a method obeys the same laws.
-/

namespace ClassSynth

open Reader

/-! ## Attributes -/

namespace Attribute

/-- The length of the content can be written in four bytes. -/
def Fits (a : Attribute) : Prop := a.info.length < 2 ^ 32

/-- The attributes can be counted, and their contents can be measured. -/
structure ListFits (attributes : List Attribute) : Prop where
  count : attributes.length ≤ 65535
  infos : ∀ a ∈ attributes, a.Fits

theorem reads {a : Attribute} (h : a.Fits) : Attribute.read.Reads a.toBytes a := by
  have hlength : a.info.length.toUInt32.toNat = a.info.length := by
    rw [Nat.toUInt32_eq, UInt32.toNat_ofNat']
    exact Nat.mod_eq_of_lt h
  rw [toBytes, List.append_assoc]
  refine (reads_u16 a.name).bind ((reads_u32 a.info.length.toUInt32).bind ?_)
  rw [hlength]
  exact (reads_take a.info).map

theorem reads_list {attributes : List Attribute} (h : ListFits attributes) :
    readList.Reads (listBytes attributes) attributes :=
  reads_counted (fun a ha => reads (h.infos a ha)) (Nat.lt_succ_of_le h.count)

theorem takes : Attribute.read.Takes fun a bytes => bytes = a.toBytes := by
  refine Takes.u16.bind fun name p hp => Takes.u32.bind fun length q hq =>
    (Takes.take _).map ?_
  rintro info bytes ⟨rfl, hlength⟩
  rw [toBytes, hp, hq, hlength]
  simp

theorem takes_list : readList.Takes fun attributes bytes =>
    bytes = listBytes attributes ∧ attributes.length ≤ 65535 :=
  takes.counted

end Attribute

/-! ## Code -/

namespace ExceptionEntry

theorem reads (e : ExceptionEntry) : ExceptionEntry.read.Reads e.toBytes e := by
  rw [toBytes, List.append_assoc, List.append_assoc]
  exact (reads_u16 e.start).bind <| (reads_u16 e.stop).bind <| (reads_u16 e.handler).bind
    (reads_u16 e.catchType).map

theorem takes : ExceptionEntry.read.Takes fun e bytes => bytes = e.toBytes :=
  Takes.u16.bind fun _ p hp => Takes.u16.bind fun _ q hq => Takes.u16.bind fun _ r hr =>
    Takes.u16.map fun _ s hs => by rw [toBytes, hp, hq, hr, hs]; simp

end ExceptionEntry

namespace CodeAttribute

/-- The counts and lengths fit into their fields. -/
structure Fits (c : CodeAttribute) : Prop where
  code : c.code.length < 2 ^ 32
  handlers : c.handlers.length ≤ 65535
  attributes : Attribute.ListFits c.attributes

theorem reads {c : CodeAttribute} (h : c.Fits) : CodeAttribute.read.Reads c.toBytes c := by
  have hlength : c.code.length.toUInt32.toNat = c.code.length := by
    rw [Nat.toUInt32_eq, UInt32.toNat_ofNat']
    exact Nat.mod_eq_of_lt h.code
  simp only [toBytes, List.append_assoc]
  refine (reads_u16 c.maxStack).bind <| (reads_u16 c.maxLocals).bind <|
    (reads_u32 c.code.length.toUInt32).bind ?_
  rw [hlength]
  exact (reads_take c.code).bind <|
    (reads_counted (fun e _ => e.reads) (Nat.lt_succ_of_le h.handlers)).bind
    (Attribute.reads_list h.attributes).map

theorem takes : CodeAttribute.read.Takes fun c bytes => bytes = c.toBytes := by
  refine Takes.u16.bind fun maxStack p hp => Takes.u16.bind fun maxLocals q hq =>
    Takes.u32.bind fun length r hr => (Takes.take _).bind ?_
  rintro code s ⟨rfl, hlength⟩
  refine ExceptionEntry.takes.counted.bind fun handlers t ht =>
    Attribute.takes_list.map fun attributes bytes hbytes => ?_
  rw [toBytes, hp, hq, hr, ht.1, hbytes.1, hlength]
  simp

end CodeAttribute

/-! ## Classes -/

namespace MemberInfo

theorem reads {m : MemberInfo} (h : Attribute.ListFits m.attributes) :
    MemberInfo.read.Reads m.toBytes m := by
  simp only [toBytes, List.append_assoc]
  exact (reads_u16 m.flags).bind <| (reads_u16 m.name).bind <| (reads_u16 m.descriptor).bind
    (Attribute.reads_list h).map

theorem takes : MemberInfo.read.Takes fun m bytes => bytes = m.toBytes :=
  Takes.u16.bind fun _ p hp => Takes.u16.bind fun _ q hq => Takes.u16.bind fun _ r hr =>
    Attribute.takes_list.map fun _ s hs => by rw [toBytes, hp, hq, hr, hs.1]; simp

end MemberInfo

namespace ClassFile

/-- The counts and lengths that are written without a check fit into their fields. -/
structure Countable (c : ClassFile) : Prop where
  texts : c.pool.TextsFit
  interfaces : c.interfaces.length ≤ 65535
  fields : c.fields.length ≤ 65535
  fieldAttributes : ∀ f ∈ c.fields, Attribute.ListFits f.attributes
  methods : c.methods.length ≤ 65535
  methodAttributes : ∀ m ∈ c.methods, Attribute.ListFits m.attributes
  attributes : ∀ a ∈ c.attributes, a.Fits

/-- The bytes after the constants. -/
def tailBytes (c : ClassFile) : Bytes :=
  Bytes.ofU16 c.flags ++ (Bytes.ofU16 c.thisClass ++ (Bytes.ofU16 c.superClass ++
    (Bytes.counted Bytes.ofU16 c.interfaces ++ (Bytes.counted MemberInfo.toBytes c.fields ++
      (Bytes.counted MemberInfo.toBytes c.methods ++ Attribute.listBytes c.attributes)))))

/-- What is read after the constants. -/
def readTail (minor major : UInt16) (pool : ConstantPool) : Reader ClassFile := do
  let flags ← Reader.u16
  let thisClass ← Reader.u16
  let superClass ← Reader.u16
  let interfaces ← Reader.counted Reader.u16
  let fields ← Reader.counted MemberInfo.read
  let methods ← Reader.counted MemberInfo.read
  let attributes ← Attribute.readList
  return {
    minor, major, pool, flags, thisClass, superClass, interfaces, fields, methods, attributes }

theorem toBytes_eq {c : ClassFile} {pool : Bytes} (hpool : c.pool.toBytes = .ok pool) :
    c.toBytes = if c.attributes.length > 65535 then .error .outOfSpace
      else .ok (Bytes.ofU32 classFileMagic ++ (Bytes.ofU16 c.minor ++ (Bytes.ofU16 c.major ++
        (pool ++ c.tailBytes)))) := by
  rw [toBytes, hpool]
  change (if _ then _ else _) = _
  split_ifs
  · rfl
  · simp [tailBytes, pure, Except.pure]

theorem reads_tail {c : ClassFile} (h : c.Countable) (hattributes : c.attributes.length ≤ 65535) :
    (readTail c.minor c.major c.pool).Reads c.tailBytes c :=
  (reads_u16 c.flags).bind <| (reads_u16 c.thisClass).bind <| (reads_u16 c.superClass).bind <|
    (reads_counted (fun i _ => reads_u16 i) (Nat.lt_succ_of_le h.interfaces)).bind <|
    (reads_counted (fun f hf => MemberInfo.reads (h.fieldAttributes f hf))
      (Nat.lt_succ_of_le h.fields)).bind <|
    (reads_counted (fun m hm => MemberInfo.reads (h.methodAttributes m hm))
      (Nat.lt_succ_of_le h.methods)).bind <|
    (Attribute.reads_list ⟨hattributes, h.attributes⟩).map

theorem takes_tail (minor major : UInt16) (pool : ConstantPool) :
    (readTail minor major pool).Takes fun c bytes =>
      (c.minor = minor ∧ c.major = major ∧ c.pool = pool) ∧ bytes = c.tailBytes ∧
        c.attributes.length ≤ 65535 :=
  Takes.u16.bind fun _ p hp => Takes.u16.bind fun _ q hq => Takes.u16.bind fun _ r hr =>
    (Takes.counted Takes.u16).bind fun _ s hs => MemberInfo.takes.counted.bind fun _ t ht =>
    MemberInfo.takes.counted.bind fun _ u hu => Attribute.takes_list.map fun _ v hv =>
    ⟨⟨rfl, rfl, rfl⟩, by rw [tailBytes, hp, hq, hr, hs.1, ht.1, hu.1, hv.1], hv.2⟩

/-- A class file is read back from its bytes. -/
theorem reads_toBytes {c : ClassFile} (hbuilt : c.pool.Built) (h : c.Countable)
    (hcount : c.pool.count ≤ 65535) (hattributes : c.attributes.length ≤ 65535) :
    ∃ bytes, c.toBytes = .ok bytes ∧ ClassFile.read.Reads bytes c := by
  obtain ⟨pool, hpool, hreads⟩ := ConstantPool.reads_toBytes hbuilt h.texts hcount
  rw [toBytes_eq hpool, if_neg (Nat.not_lt_of_le hattributes)]
  refine ⟨_, rfl, ?_⟩
  refine (reads_u32 classFileMagic).bind ?_
  rw [if_neg (fun h => h rfl)]
  exact (reads_u16 c.minor).bind <| (reads_u16 c.major).bind <|
    hreads.bind (reads_tail h hattributes)

/-! ## Counts -/

/-- The number that two bytes show for a count. -/
def shownCount (n : Nat) : Nat := n.toUInt16.toNat

theorem shownCount_eq {n : Nat} (h : n ≤ 65535) : shownCount n = n :=
  toNat_toUInt16_of_lt (Nat.lt_succ_of_le h)

/-- Every count and length that is written in 16 bits shows how many items follow it. -/
structure CountsExact (c : ClassFile) : Prop where
  constants : shownCount c.pool.count = c.pool.count
  texts : ∀ text, some (.utf8 text) ∈ c.pool.slots.toList →
    shownCount (ModifiedUtf8.encode text).length = (ModifiedUtf8.encode text).length
  interfaces : shownCount c.interfaces.length = c.interfaces.length
  fields : shownCount c.fields.length = c.fields.length
  methods : shownCount c.methods.length = c.methods.length
  memberAttributes : ∀ m ∈ c.fields ++ c.methods,
    shownCount m.attributes.length = m.attributes.length
  attributes : shownCount c.attributes.length = c.attributes.length

/-- Counts that are refused or fit are exact. -/
theorem Countable.exact {c : ClassFile} (h : c.Countable) (hcount : c.pool.count ≤ 65535)
    (hattributes : c.attributes.length ≤ 65535) : c.CountsExact where
  constants := shownCount_eq hcount
  texts := fun text htext => shownCount_eq (h.texts _ htext)
  interfaces := shownCount_eq h.interfaces
  fields := shownCount_eq h.fields
  methods := shownCount_eq h.methods
  memberAttributes := fun m hm => by
    rcases List.mem_append.mp hm with hm | hm
    · exact shownCount_eq (h.fieldAttributes m hm).count
    · exact shownCount_eq (h.methodAttributes m hm).count
  attributes := shownCount_eq hattributes

/-- If what is written without a check fits, writing fails for too many constants or attributes
only, and otherwise every count is exact and the class is read back. -/
theorem toBytes_exact {c : ClassFile} (hbuilt : c.pool.Built) (h : c.Countable) :
    (65535 < c.pool.count ∨ 65535 < c.attributes.length) ∧ c.toBytes = .error .outOfSpace ∨
      ∃ bytes, c.toBytes = .ok bytes ∧ c.CountsExact ∧ ClassFile.parse bytes = .ok c := by
  by_cases hcount : c.pool.count ≤ 65535
  · by_cases hattributes : c.attributes.length ≤ 65535
    · obtain ⟨bytes, hbytes, hreads⟩ := reads_toBytes hbuilt h hcount hattributes
      have hrun := hreads.run []
      rw [List.append_nil] at hrun
      exact .inr ⟨bytes, hbytes, h.exact hcount hattributes, hrun⟩
    · obtain ⟨pool, hpool, _⟩ := ConstantPool.reads_toBytes hbuilt h.texts hcount
      have hmany := Nat.lt_of_not_le hattributes
      exact .inl ⟨.inr hmany, by rw [toBytes_eq hpool, if_pos hmany]⟩
  · have hmany := Nat.lt_of_not_le hcount
    refine .inl ⟨.inl hmany, ?_⟩
    rw [toBytes, ConstantPool.toBytes, if_pos hmany]
    rfl

/-- A class with an interface and a field. -/
theorem toBytes_exact_interface :
    ∃ bytes, ClassFile.toBytes
        { major := 52, pool := ConstantPool.empty.pushAll [.utf8 "A", .classRef 1, .utf8 "I"]
          flags := 33, thisClass := 2, superClass := 0, interfaces := [2]
          fields := [⟨1, 1, 3, []⟩] } = .ok bytes ∧
      ClassFile.parse bytes = .ok
        { major := 52, pool := ConstantPool.empty.pushAll [.utf8 "A", .classRef 1, .utf8 "I"]
          flags := 33, thisClass := 2, superClass := 0, interfaces := [2]
          fields := [⟨1, 1, 3, []⟩] } := by
  have hslots : (ConstantPool.empty.pushAll [.utf8 "A", .classRef 1, .utf8 "I"]).slots.toList
      = [some (.utf8 "A"), some (.classRef 1), some (.utf8 "I")] := by
    rw [ConstantPool.slots_pushAll]
    rfl
  have hexact := toBytes_exact (c :=
    { major := 52, pool := ConstantPool.empty.pushAll [.utf8 "A", .classRef 1, .utf8 "I"]
      flags := 33, thisClass := 2, superClass := 0, interfaces := [2], fields := [⟨1, 1, 3, []⟩] })
    (ConstantPool.Built.empty.pushAll _)
    { texts := ConstantPool.textsFit_of_all (by rw [hslots]; decide)
      interfaces := by decide
      fields := by decide
      fieldAttributes := by
        intro f hf
        rw [List.mem_singleton.mp hf]
        exact ⟨by decide, fun _ h => nomatch h⟩
      methods := by decide
      methodAttributes := fun _ h => nomatch h
      attributes := fun _ h => nomatch h }
  rcases hexact with ⟨hmany, _⟩ | ⟨bytes, hbytes, _, hparse⟩
  · exact absurd hmany (by decide)
  · exact ⟨bytes, hbytes, hparse⟩

/-! ## Reading first -/

/-- The number of constants that the bytes of a class file declare. -/
def declaredCount? (bytes : Bytes) : Option Nat :=
  match Reader.u16 ⟨8, bytes.drop 8⟩ with
  | .ok (count, _) => some count.toNat
  | .error _ => none

/-- Are the texts in the bytes of a class file encoded as they would be written? -/
def hasCanonicalTexts (bytes : Bytes) : Bool :=
  ConstantPool.canonicalPool ⟨8, bytes.drop 8⟩

/-- A class file is written as the bytes from which it was read, if its texts are canonical and as
many constants were declared as are used. -/
theorem toBytes_of_read {bytes : Bytes} {c : ClassFile} {offset : Nat}
    (h : ClassFile.read ⟨0, bytes⟩ = .ok (c, ⟨offset, []⟩))
    (hcanonical : hasCanonicalTexts bytes = true)
    (hcount : declaredCount? bytes = some c.pool.count) :
    c.toBytes = .ok bytes := by
  obtain ⟨magic, c₁, hmagic, h⟩ := bind_eq_ok.mp h
  by_cases hok : magic = classFileMagic
  · rw [if_neg (fun hne => hne hok)] at h
    obtain ⟨minor, c₂, hminor, h⟩ := bind_eq_ok.mp h
    obtain ⟨major, c₃, hmajor, h⟩ := bind_eq_ok.mp h
    obtain ⟨pool, c₄, hpool, h⟩ := bind_eq_ok.mp h
    obtain ⟨_, rfl, hbytes, hoffset₁⟩ := Takes.u32 _ _ _ hmagic
    obtain ⟨_, rfl, hc₁, hoffset₂⟩ := Takes.u16 _ _ _ hminor
    obtain ⟨_, rfl, hc₂, hoffset₃⟩ := Takes.u16 _ _ _ hmajor
    obtain ⟨_, ⟨⟨rfl, rfl, rfl⟩, rfl, hattributes⟩, hc₄, _⟩ :=
      takes_tail minor major pool _ _ _ h
    have hall : bytes
        = Bytes.ofU32 magic ++ (Bytes.ofU16 c.minor ++ (Bytes.ofU16 c.major ++ c₃.rest)) := by
      rw [← hc₂, ← hc₁]
      exact hbytes
    -- the constants start behind the magic number and the version
    have hc₃ : c₃ = ⟨8, bytes.drop 8⟩ := by
      have hoffset : c₃.offset = 8 := by simp [hoffset₁, hoffset₂, hoffset₃]
      have hrest : bytes.drop 8 = c₃.rest := by rw [hall]; rfl
      rw [hrest, ← hoffset]
    rw [hasCanonicalTexts, ← hc₃] at hcanonical
    rw [declaredCount?, ← hc₃] at hcount
    cases hdeclared : Reader.u16 c₃ with
    | error e =>
      rw [hdeclared] at hcount
      cases hcount
    | ok p =>
      rw [hdeclared] at hcount
      obtain ⟨poolBytes, hpoolBytes, hrest⟩ :=
        ConstantPool.of_read hcanonical hpool hdeclared (Option.some.inj hcount)
      rw [toBytes_eq hpoolBytes, if_neg (Nat.not_lt_of_le hattributes), hall, hrest,
        hc₄, hok, List.append_nil]
  · rw [if_pos hok] at h
    obtain ⟨_, _, hfail, _⟩ := bind_eq_ok.mp h
    cases hfail

/-- Each constant of a class file that was read has an index. -/
theorem indexable_of_parse {bytes : Bytes} {c : ClassFile} (h : parse bytes = .ok c) :
    c.pool.Indexable := by
  obtain ⟨⟨_, _⟩, hread, rfl⟩ := Checked.map_eq_ok.mp h
  obtain ⟨magic, c₁, -, hchecked⟩ := bind_eq_ok.mp hread
  split_ifs at hchecked
  · obtain ⟨_, _, hfail, -⟩ := bind_eq_ok.mp hchecked
    cases hfail
  · obtain ⟨minor, c₂, -, hmajor⟩ := bind_eq_ok.mp hchecked
    obtain ⟨major, c₃, -, hpool⟩ := bind_eq_ok.mp hmajor
    obtain ⟨pool, c₄, hpool, htail⟩ := bind_eq_ok.mp hpool
    obtain ⟨_, ⟨⟨-, -, rfl⟩, -⟩, -⟩ := takes_tail minor major pool _ _ _ htail
    exact ConstantPool.indexable_of_read hpool

end ClassFile

/-! ## Units -/

namespace ClassUnit

/-- The class has a compiled form, and the name that its file gives it. -/
structure Named (u : ClassUnit) : Prop where
  compiled : u.isStub = false
  name : u.file.thisName.map .ofInternal = .ok u.name

/-- A unit that was read is named by its file. -/
theorem named_of_ofFile {file : ClassFile} {u : ClassUnit} (h : ofFile file = .ok u) : u.Named := by
  obtain ⟨text, htext, hu⟩ := Checked.bind_eq_ok.mp h
  obtain rfl := Except.ok.inj hu
  rw [liftFormat, Checked.mapError_eq_ok] at htext
  exact ⟨rfl, by rw [htext]; rfl⟩

theorem ofFile_of_named {u : ClassUnit} (h : u.Named) : ofFile u.file = .ok u := by
  have hname := h.name
  cases hthis : u.file.thisName with
  | error e =>
    rw [hthis] at hname
    cases hname
  | ok text =>
    rw [hthis] at hname
    have hname : TypeName.ofInternal text = u.name := Except.ok.inj hname
    obtain ⟨name, file, isStub⟩ := u
    obtain rfl : isStub = false := h.compiled
    obtain rfl : TypeName.ofInternal text = name := hname
    change (liftFormat file.thisName >>= fun text => _) = _
    rw [hthis]
    rfl

end ClassUnit

/-! ## The laws of the codec -/

namespace ClassFile

/-- Both laws of the codec, for class files and for the code of methods. What is read back is the
same class, its table of constants included, and so is the unit that holds it: whatever is done to
the class afterwards does not depend on whether it was written and read in between. -/
theorem codec_laws :
    (∀ c : ClassFile, c.pool.Built → c.pool.count ≤ 65535 → c.attributes.length ≤ 65535 →
      c.Countable → ∃ bytes, c.toBytes = .ok bytes ∧ ClassFile.parse bytes = .ok c ∧
        ∀ u : ClassUnit, u.file = c → u.Named → ClassUnit.ofBytes bytes = .ok u) ∧
    (∀ (bytes : Bytes) (c : ClassFile) (offset : Nat),
      ClassFile.read ⟨0, bytes⟩ = .ok (c, ⟨offset, []⟩) → hasCanonicalTexts bytes = true →
      declaredCount? bytes = some c.pool.count → c.toBytes = .ok bytes) ∧
    (∀ code : CodeAttribute, code.Fits → CodeAttribute.parse code.toBytes = .ok code) ∧
    ∀ (info : Bytes) (code : CodeAttribute) (offset : Nat),
      CodeAttribute.read ⟨0, info⟩ = .ok (code, ⟨offset, []⟩) → code.toBytes = info := by
  refine ⟨fun c hbuilt hcount hattributes hfits => ?_,
    fun bytes c offset hread hcanonical hcount => toBytes_of_read hread hcanonical hcount,
    fun code hfits => ?_, fun info code offset hread => ?_⟩
  · obtain ⟨bytes, hbytes, hreads⟩ := reads_toBytes hbuilt hfits hcount hattributes
    have hparse : ClassFile.parse bytes = .ok c := by
      have hrun := hreads.run []
      rwa [List.append_nil] at hrun
    refine ⟨bytes, hbytes, hparse, fun u hu hnamed => ?_⟩
    rw [ClassUnit.ofBytes, hparse, ← hu]
    exact ClassUnit.ofFile_of_named hnamed
  · have hrun := (CodeAttribute.reads hfits).run []
    rwa [List.append_nil] at hrun
  · obtain ⟨bytes, hbytes, hrest, _⟩ := CodeAttribute.takes _ _ _ hread
    rw [← hbytes]
    simpa using hrest.symm

/-- The laws for a class with a superclass, and for a method that only returns. -/
theorem codec_laws_class :
    ∃ c : ClassFile, c.toBytes = .ok [202, 254, 186, 190, 0, 0, 0, 52, 0, 5, 1, 0, 1, 65, 7, 0,
        1, 1, 0, 1, 66, 7, 0, 3, 0, 33, 0, 2, 0, 4, 0, 0, 0, 0, 0, 0, 0, 0] ∧
      ClassFile.parse [202, 254, 186, 190, 0, 0, 0, 52, 0, 5, 1, 0, 1, 65, 7, 0, 1, 1, 0,
        1, 66, 7, 0, 3, 0, 33, 0, 2, 0, 4, 0, 0, 0, 0, 0, 0, 0, 0] = .ok c ∧
      ClassUnit.ofBytes [202, 254, 186, 190, 0, 0, 0, 52, 0, 5, 1, 0, 1, 65, 7, 0, 1, 1, 0,
        1, 66, 7, 0, 3, 0, 33, 0, 2, 0, 4, 0, 0, 0, 0, 0, 0, 0, 0] = .ok ⟨⟨"A"⟩, c, false⟩ ∧
      CodeAttribute.parse (CodeAttribute.toBytes ⟨0, 1, [177], [], []⟩)
        = .ok ⟨0, 1, [177], [], []⟩ ∧
      CodeAttribute.toBytes ⟨0, 1, [177], [], []⟩ = [0, 0, 0, 1, 0, 0, 0, 1, 177, 0, 0, 0, 0] := by
  obtain ⟨hclass, hbytesOf, hcode, hinfo⟩ := codec_laws
  let c : ClassFile :=
    { major := 52
      pool := ConstantPool.empty.pushAll [.utf8 "A", .classRef 1, .utf8 "B", .classRef 3]
      flags := 33, thisClass := 2, superClass := 4 }
  have hbuilt : c.pool.Built := ConstantPool.Built.empty.pushAll _
  have hfits : c.Countable :=
    { texts := by
        have hslots : c.pool.slots.toList
            = [some (.utf8 "A"), some (.classRef 1), some (.utf8 "B"), some (.classRef 3)] := by
          rw [ConstantPool.slots_pushAll]
          rfl
        exact ConstantPool.textsFit_of_all (by rw [hslots]; decide)
      interfaces := by decide
      fields := by decide
      fieldAttributes := fun _ h => nomatch h
      methods := by decide
      methodAttributes := fun _ h => nomatch h
      attributes := fun _ h => nomatch h }
  obtain ⟨bytes, hbytes, hparse, hunit⟩ := hclass c hbuilt (by decide) (by decide) hfits
  obtain ⟨written, hwritten, hreads⟩ := reads_toBytes hbuilt hfits (by decide) (by decide)
  obtain rfl : bytes = written := Except.ok.inj (hbytes.symm.trans hwritten)
  have hread : ClassFile.read ⟨0, bytes⟩ = .ok (c, ⟨bytes.length, []⟩) := by
    have hreads := hreads 0 []
    rwa [List.append_nil, Nat.zero_add] at hreads
  obtain rfl : bytes = [202, 254, 186, 190, 0, 0, 0, 52, 0, 5, 1, 0, 1, 65, 7, 0, 1, 1, 0,
      1, 66, 7, 0, 3, 0, 33, 0, 2, 0, 4, 0, 0, 0, 0, 0, 0, 0, 0] :=
    Except.ok.inj (hbytes.symm.trans (by decide +kernel))
  exact ⟨c, hbytesOf _ c _ hread (by decide +kernel) (by decide +kernel), hparse,
    hunit ⟨⟨"A"⟩, c, false⟩ rfl ⟨rfl, by decide +kernel⟩,
    hcode _ ⟨by decide, by decide, by decide, fun _ h => nomatch h⟩,
    hinfo [0, 0, 0, 1, 0, 0, 0, 1, 177, 0, 0, 0, 0] _ 13 (by decide +kernel)⟩

end ClassFile

end ClassSynth
