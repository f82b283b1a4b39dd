import ClassSynth.Proofs.ClassFile.Codec

/-!
# Cut-off class files

A class file says of each of its parts how long it is, so a reader of class files never looks beyond
what it takes, and never stops early because the bytes end.

**Exact readers** (`Reader.Exact`). A reader that succeeds would have done the same whatever
followed the bytes that it took. Where these bytes are cut off, it reports that some are missing, at
an offset that is still there and with a number of bytes that is not (`Reader.Misses`).

**Composition.** A sequence of exact readers is exact: a cut lies in the bytes of one of them.
Counted lists and the constants of a pool follow by induction on the number of items.

Main result: `ClassFile.parse_of_cut`.
-/

namespace ClassSynth

namespace Reader

variable {α β : Type}

/-- The reader asks for more bytes than there are. -/
def Misses (r : Reader α) (c : Cursor) : Prop :=
  ∃ offset needed, r c = .error (.truncated offset needed) ∧
    offset ≤ c.offset + c.rest.length ∧ c.offset + c.rest.length < offset + needed

/-- At the offset, the reader needs all of the bytes. -/
def NeedsAt (r : Reader α) (offset : Nat) (bytes : Bytes) : Prop :=
  ∀ kept lost, bytes = kept ++ lost → lost ≠ [] → r.Misses ⟨offset, kept⟩

/-- What the reader gives depends on the bytes that it takes, and on each of them. -/
def Exact (r : Reader α) : Prop :=
  ∀ c a c', r c = .ok (a, c') → ∃ taken, c.rest = taken ++ c'.rest ∧
    c'.offset = c.offset + taken.length ∧ r.ReadsAt c.offset taken a ∧ r.NeedsAt c.offset taken

theorem Misses.bind {r : Reader α} {f : α → Reader β} {c : Cursor} (h : r.Misses c) :
    (r >>= f).Misses c := by
  obtain ⟨offset, needed, herror, hbounds⟩ := h
  refine ⟨offset, needed, ?_, hbounds⟩
  change (r c >>= fun q => f q.1 q.2) = _
  rw [herror]
  rfl

/-- What one step misses behind another, the sequence misses. -/
theorem Misses.after {r : Reader α} {f : α → Reader β} {offset : Nat} {taken kept : Bytes} {a : α}
    (hreads : r.ReadsAt offset taken a) (h : (f a).Misses ⟨offset + taken.length, kept⟩) :
    (r >>= f).Misses ⟨offset, taken ++ kept⟩ := by
  obtain ⟨missing, needed, herror, hle, hlt⟩ := h
  refine ⟨missing, needed, ?_, ?_, ?_⟩
  · rw [bind_ok (hreads kept), herror]
  · simpa [Nat.add_assoc] using hle
  · simpa [Nat.add_assoc] using hlt

/-- A cut through the bytes of two steps lies in those of the first or in those of the second. -/
theorem NeedsAt.bind {r : Reader α} {f : α → Reader β} {offset : Nat} {p q : Bytes} {a : α}
    (hreads : r.ReadsAt offset p a) (hr : r.NeedsAt offset p)
    (hf : (f a).NeedsAt (offset + p.length) q) : (r >>= f).NeedsAt offset (p ++ q) := by
  intro kept lost hcut hlost
  rcases List.append_eq_append_iff.mp hcut with ⟨more, rfl, hq⟩ | ⟨more, rfl, hlater⟩
  · exact (hf more lost hq hlost).after hreads
  · cases more with
    | nil =>
      -- the cut is where the second step starts
      rw [List.nil_append] at hlater
      have hmisses := (hf [] lost hlater.symm hlost).after hreads
      simpa using hmisses
    | cons b more => exact (hr kept (b :: more) rfl (List.cons_ne_nil b more)).bind

namespace Exact

variable {r : Reader α}

theorem pure {a : α} : (Pure.pure a : Reader α).Exact := by
  intro c b c' h
  obtain ⟨rfl, rfl⟩ := Prod.mk.inj (pure_eq_ok.mp h)
  refine ⟨[], rfl, rfl, .pure b _, fun kept lost hcut hlost => ?_⟩
  exact absurd (List.append_eq_nil_iff.mp hcut.symm).2 hlost

theorem bind {f : α → Reader β} (hr : r.Exact) (hf : ∀ a, (f a).Exact) : (r >>= f).Exact := by
  intro c b c'' h
  obtain ⟨a, c', ha, hb⟩ := bind_eq_ok.mp h
  obtain ⟨p, hrest, hoffset, hreads, hneeds⟩ := hr c a c' ha
  obtain ⟨q, hrest', hoffset', hreads', hneeds'⟩ := hf a c' b c'' hb
  rw [hoffset] at hreads' hneeds'
  refine ⟨p ++ q, ?_, ?_, hreads.bind hreads', hneeds.bind hreads hneeds'⟩
  · rw [hrest, hrest', List.append_assoc]
  · rw [hoffset', hoffset, List.length_append, Nat.add_assoc]

/-- A last step that reads nothing. -/
theorem map {g : α → β} (hr : r.Exact) : (r >>= fun a => Pure.pure (g a)).Exact :=
  hr.bind fun _ => pure

theorem fail {e : ClassFormatError} : (Reader.fail e : Reader α).Exact := by
  intro c a c' h
  cases h

/-! ### Numbers and lists -/

/-- A reader of a fixed number of bytes, which it asks for at once. -/
theorem of_fixed {n : Nat}
    (htakes : ∀ c a c', r c = .ok (a, c') → ∃ taken, taken.length = n ∧
      c.rest = taken ++ c'.rest ∧ c'.offset = c.offset + n ∧ r.ReadsAt c.offset taken a)
    (hmisses : ∀ c : Cursor, c.rest.length < n → r c = .error (.truncated c.offset n)) :
    r.Exact := by
  intro c a c' h
  obtain ⟨taken, hlength, hrest, hoffset, hreads⟩ := htakes c a c' h
  refine ⟨taken, hrest, by rw [hoffset, hlength], hreads, fun kept lost hcut hlost => ?_⟩
  have hshort : kept.length < n := by
    have hpos := List.length_pos_iff.mpr hlost
    rw [← hlength, hcut, List.length_append]
    omega
  exact ⟨c.offset, n, hmisses ⟨c.offset, kept⟩ hshort, Nat.le_add_right _ _,
    Nat.add_lt_add_left hshort _⟩

theorem u8 : Reader.u8.Exact := by
  refine of_fixed (n := 1) (fun c a c' h => ?_) fun c hshort => ?_
  · obtain ⟨_, rfl, hrest, hoffset⟩ := Takes.u8 c a c' h
    exact ⟨[a], rfl, hrest, hoffset, reads_u8 a c.offset⟩
  · obtain ⟨offset, rest⟩ := c
    match rest, hshort with
    | [], _ => rfl

theorem u16 : Reader.u16.Exact := by
  refine of_fixed (n := 2) (fun c a c' h => ?_) fun c hshort => ?_
  · obtain ⟨_, rfl, hrest, hoffset⟩ := Takes.u16 c a c' h
    exact ⟨_, rfl, hrest, hoffset, reads_u16 a c.offset⟩
  · obtain ⟨offset, rest⟩ := c
    match rest, hshort with
    | [], _ | [_], _ => rfl

theorem u32 : Reader.u32.Exact := by
  refine of_fixed (n := 4) (fun c a c' h => ?_) fun c hshort => ?_
  · obtain ⟨_, rfl, hrest, hoffset⟩ := Takes.u32 c a c' h
    exact ⟨_, rfl, hrest, hoffset, reads_u32 a c.offset⟩
  · obtain ⟨offset, rest⟩ := c
    match rest, hshort with
    | [], _ | [_], _ | [_, _], _ | [_, _, _], _ => rfl

theorem u64 : Reader.u64.Exact := u32.bind fun _ => u32.map

theorem i32 : Reader.i32.Exact := u32.map

theorem take (n : Nat) : (Reader.take n).Exact := by
  refine of_fixed (n := n) (fun c a c' h => ?_) fun c hshort => ?_
  · obtain ⟨_, ⟨rfl, rfl⟩, hrest, hoffset⟩ := Takes.take n c a c' h
    exact ⟨_, rfl, hrest, hoffset, reads_take _ c.offset⟩
  · have hnone : splitFirst? n c.rest = none := by
      cases hsplit : splitFirst? n c.rest with
      | none => rfl
      | some parts =>
        obtain ⟨happend, hlength⟩ := splitFirstAux_eq_some hsplit
        have hle := congrArg List.length happend
        simp only [List.reverse_nil, List.nil_append, List.length_append, List.length_nil]
          at hle hlength
        omega
    rw [Reader.take, hnone]

/-- A list of known length. The induction is on the number of items that are still to be read. -/
theorem many (hr : r.Exact) (n : Nat) : (Reader.many n r).Exact := by
  have haux : ∀ (n : Nat) (done : List α), (manyAux r done n).Exact := by
    intro n
    induction n with
    | zero => exact fun done => pure
    | succ n ih => exact fun done => hr.bind fun a => ih (a :: done)
  exact haux n []

theorem counted (hr : r.Exact) : (Reader.counted r).Exact :=
  u16.bind fun n => hr.many n.toNat

end Exact

end Reader

/-! ## The parts of a class file -/

open Reader

namespace Attribute

theorem exact : Attribute.read.Exact :=
  Exact.u16.bind fun _ => Exact.u32.bind fun length => (Exact.take length.toNat).map

theorem exact_list : readList.Exact := exact.counted

end Attribute

theorem MemberInfo.exact : MemberInfo.read.Exact :=
  Exact.u16.bind fun _ => Exact.u16.bind fun _ => Exact.u16.bind fun _ => Attribute.exact_list.map

namespace Constant

theorem exact_text (index : UInt16) : (readText index).Exact := by
  refine Exact.u16.bind fun length => (Exact.take length.toNat).bind fun raw => ?_
  cases ModifiedUtf8.decodeConstant raw with
  | some text => exact .pure
  | none => exact .fail

theorem exact_pair (make : UInt16 → UInt16 → Constant) : (readPair make).Exact :=
  Exact.u16.bind fun _ => Exact.u16.map

theorem exact_payload (index : UInt16) (tag : UInt8) : (readPayload index tag).Exact := by
  unfold readPayload
  split
  case h_1 => exact (exact_text index).map
  case h_2 => exact Exact.i32.map
  case h_3 => exact Exact.u32.map
  case h_4 | h_5 => exact Exact.u64.map
  case h_12 => exact Exact.u8.bind fun _ => Exact.u16.map
  case h_18 => exact .fail
  -- one index, or two
  all_goals first
    | exact exact_pair _
    | exact Exact.u16.map

theorem exact (index : UInt16) : (Constant.read index).Exact :=
  Exact.u8.bind fun tag => exact_payload index tag

end Constant

namespace ConstantPool

/-- The constants of a pool, by induction on the rounds that are left. -/
theorem exact_readAux (count fuel : Nat) (p : ConstantPool) : (readAux count fuel p).Exact := by
  induction fuel generalizing p with
  | zero => exact .pure
  | succ fuel ih =>
    rw [readAux]
    split_ifs
    · exact (Constant.exact _).bind fun c => ih (p.push c).2
    · exact .pure

theorem exact : ConstantPool.read.Exact :=
  Exact.u16.bind fun count => exact_readAux count.toNat count.toNat empty

end ConstantPool

namespace ClassFile

theorem exact_tail (minor major : UInt16) (pool : ConstantPool) :
    (readTail minor major pool).Exact :=
  Exact.u16.bind fun _ => Exact.u16.bind fun _ => Exact.u16.bind fun _ =>
    Exact.u16.counted.bind fun _ => MemberInfo.exact.counted.bind fun _ =>
    MemberInfo.exact.counted.bind fun _ => Attribute.exact_list.map

theorem exact : ClassFile.read.Exact := by
  refine Exact.u32.bind fun magic => ?_
  have hrest : (do
      let minor ← Reader.u16
      let major ← Reader.u16
      let pool ← ConstantPool.read
      readTail minor major pool).Exact :=
    Exact.u16.bind fun minor => Exact.u16.bind fun major => ConstantPool.exact.bind fun pool =>
      exact_tail minor major pool
  split_ifs
  · exact Exact.fail.bind fun _ => hrest
  · exact hrest

/-- A class file that was read to its last byte is read as the same class whatever follows these
bytes, and not at all from a proper part at their front: the reader reports where bytes are missing.
-/
theorem parse_of_cut {bytes : Bytes} {c : ClassFile} {offset : Nat}
    (h : ClassFile.read ⟨0, bytes⟩ = .ok (c, ⟨offset, []⟩)) :
    (∀ more, parse (bytes ++ more) = .ok c) ∧
      ∀ kept lost, bytes = kept ++ lost → lost ≠ [] →
        ∃ position needed, parse kept = .error (.truncated position needed) ∧
          position ≤ kept.length ∧ kept.length < position + needed := by
  obtain ⟨taken, hrest, hoffset, hreads, hneeds⟩ := exact _ _ _ h
  obtain rfl : bytes = taken := by simpa using hrest
  refine ⟨fun more => ?_, fun kept lost hcut hlost => ?_⟩
  · rw [parse, Reader.run, hreads more]
    rfl
  · obtain ⟨position, needed, herror, hle, hlt⟩ := hneeds kept lost hcut hlost
    refine ⟨position, needed, ?_, by simpa using hle, by simpa using hlt⟩
    rw [parse, Reader.run, herror]
    rfl

/-- A class `A` with a constant of eight bytes and a method `m` that only returns. -/
def returningClass : Bytes :=
  [202, 254, 186, 190, 0, 0, 0, 52, 0, 8, 1, 0, 1, 65, 7, 0, 1, 5, 0, 0, 0, 0, 0, 0, 0, 5,
    1, 0, 1, 109, 1, 0, 3, 40, 41, 86, 1, 0, 4, 67, 111, 100, 101, 0, 33, 0, 2, 0, 0, 0, 0, 0, 0,
    0, 1, 0, 9, 0, 5, 0, 6, 0, 1, 0, 7, 0, 0, 0, 13, 0, 0, 0, 0, 0, 0, 0, 1, 177, 0, 0, 0, 0, 0, 0]

/-- The class with a byte behind it, and cut off in the code of its method. -/
theorem parse_of_cut_code :
    ∃ c, ClassFile.read ⟨0, returningClass⟩ = .ok (c, ⟨84, []⟩) ∧
      parse (returningClass ++ [0]) = .ok c ∧
      ∃ position needed, parse (returningClass.take 78) = .error (.truncated position needed) ∧
        position ≤ 78 ∧ 78 < position + needed := by
  have hcursor : (ClassFile.read ⟨0, returningClass⟩).map (·.2) = .ok ⟨84, []⟩ := by
    decide +kernel
  obtain ⟨⟨c, _⟩, hread, rfl⟩ := Checked.map_eq_ok.mp hcursor
  obtain ⟨hmore, hcut⟩ := parse_of_cut hread
  exact ⟨c, hread, hmore [0],
    hcut (returningClass.take 78) (returningClass.drop 78) rfl (by decide)⟩

end ClassFile

end ClassSynth
