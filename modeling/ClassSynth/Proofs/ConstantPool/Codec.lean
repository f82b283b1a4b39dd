import ClassSynth.Proofs.Bytes.Reading
import ClassSynth.Proofs.ConstantPool.Growth
import ClassSynth.Proofs.Text.ModifiedUtf8

/-!
# The bytes of a constant pool

Constants and pools are read back from their bytes, as long as the texts are short enough to be
counted (`reads_toBytes`). In the other direction, the bytes of a pool that was read are those that
were read, if its texts were encoded canonically and as many slots were declared as are used
(`of_read`).
-/

namespace ClassSynth

open Reader

namespace Constant

/-- The length of the text that the constant holds, in bytes. -/
def textLength : Constant → Nat
  | .utf8 text => (ModifiedUtf8.encode text).length
  | _ => 0

/-- The bytes of a text can be counted in 16 bits. -/
def TextFits (c : Constant) : Prop := c.textLength ≤ 65535

theorem reads_text (index : UInt16) {text : String}
    (h : (ModifiedUtf8.encode text).length ≤ 65535) :
    (readText index).Reads
      (Bytes.ofCount (ModifiedUtf8.encode text).length ++ ModifiedUtf8.encode text) text := by
  have hlength : (ModifiedUtf8.encode text).length.toUInt16.toNat
      = (ModifiedUtf8.encode text).length := toNat_toUInt16_of_lt (by omega)
  refine (reads_u16 (ModifiedUtf8.encode text).length.toUInt16).bind ?_
  rw [hlength]
  intro offset rest
  rw [bind_ok (reads_take (ModifiedUtf8.encode text) offset rest),
    ModifiedUtf8.decodeConstant_encode]
  rfl

theorem reads_pair (make : UInt16 → UInt16 → Constant) (a b : UInt16) :
    (readPair make).Reads (Bytes.ofU16 a ++ Bytes.ofU16 b) (make a b) :=
  (reads_u16 a).bind (reads_u16 b).map

/-- A constant is read back from its bytes. -/
theorem reads {c : Constant} (h : c.TextFits) (index : UInt16) :
    (Constant.read index).Reads c.toBytes c := by
  refine (reads_u8 c.tag).bind (p := [c.tag]) ?_
  cases c with
  | utf8 text => exact (reads_text index h).map
  | integer value => exact (reads_i32 value).map
  | float bits => exact (reads_u32 bits).map
  | long value =>
    have hvalue := (reads_u64 value.toUInt64).map (g := fun n => Constant.long n.toInt64)
    rwa [Int64.toInt64_toUInt64] at hvalue
  | double bits => exact (reads_u64 bits).map
  | classRef a => exact (reads_u16 a).map
  | string a => exact (reads_u16 a).map
  | fieldRef a b => exact reads_pair .fieldRef a b
  | methodRef a b => exact reads_pair .methodRef a b
  | interfaceMethodRef a b => exact reads_pair .interfaceMethodRef a b
  | nameAndType a b => exact reads_pair .nameAndType a b
  | methodHandle kind a => exact (reads_u8 kind).bind (p := [kind]) (reads_u16 a).map
  | methodType a => exact (reads_u16 a).map
  | dynamic a b => exact reads_pair .dynamic a b
  | invokeDynamic a b => exact reads_pair .invokeDynamic a b
  | module a => exact (reads_u16 a).map
  | package a => exact (reads_u16 a).map

theorem takes_text (index : UInt16) : (readText index).Takes fun _ _ => True := by
  refine Takes.u16.bind fun length _ _ => (Takes.take _).bind fun raw _ _ => ?_
  cases ModifiedUtf8.decodeConstant raw with
  | some text => exact .pure trivial
  | none => exact .fail

theorem takes_pair (make : UInt16 → UInt16 → Constant) :
    (readPair make).Takes fun c bytes =>
      ∃ a b, c = make a b ∧ bytes = Bytes.ofU16 a ++ Bytes.ofU16 b :=
  Takes.u16.bind fun a p hp => Takes.u16.map fun b q hq => ⟨a, b, rfl, by rw [hp, hq]⟩

/-- The bytes of a constant that was read are those that were read, texts excepted: a text has more
than one encoding. -/
theorem takes (index : UInt16) :
    (Constant.read index).Takes fun c bytes =>
      (∀ text, c ≠ .utf8 text) → bytes = c.toBytes := by
  refine Takes.u8.bind fun tag p hp => ?_
  subst hp
  have hpair : ∀ make : UInt16 → UInt16 → Constant,
      (∀ a b, [tag] ++ (Bytes.ofU16 a ++ Bytes.ofU16 b) = (make a b).toBytes) →
      (readPair make).Takes fun c bytes =>
        (∀ text, c ≠ .utf8 text) → [tag] ++ bytes = c.toBytes := by
    intro make hmake
    refine (takes_pair make).mono ?_
    rintro c bytes ⟨a, b, rfl, rfl⟩ _
    exact hmake a b
  have hindex : ∀ make : UInt16 → Constant,
      (∀ a, [tag] ++ Bytes.ofU16 a = (make a).toBytes) →
      (Reader.u16 >>= fun a => pure (make a)).Takes fun c bytes =>
        (∀ text, c ≠ .utf8 text) → [tag] ++ bytes = c.toBytes :=
    fun make hmake => Takes.u16.map fun a bytes h _ => by rw [h, hmake]
  unfold readPayload
  split
  · exact (takes_text index).map fun text _ _ h => absurd rfl (h text)
  · exact Takes.i32.map fun value bytes h _ => by rw [h]; rfl
  · exact Takes.u32.map fun value bytes h _ => by rw [h]; rfl
  · refine Takes.u64.map fun value bytes h _ => ?_
    rw [h, toBytes, payload, UInt64.toUInt64_toInt64]
    rfl
  · exact Takes.u64.map fun value bytes h _ => by rw [h]; rfl
  · exact hindex .classRef fun _ => rfl
  · exact hindex .string fun _ => rfl
  · exact hpair .fieldRef fun _ _ => rfl
  · exact hpair .methodRef fun _ _ => rfl
  · exact hpair .interfaceMethodRef fun _ _ => rfl
  · exact hpair .nameAndType fun _ _ => rfl
  · refine Takes.u8.bind fun kind q hq => Takes.u16.map fun a bytes h _ => ?_
    rw [hq, h]
    rfl
  · exact hindex .methodType fun _ => rfl
  · exact hpair .dynamic fun _ _ => rfl
  · exact hpair .invokeDynamic fun _ _ => rfl
  · exact hindex .module fun _ => rfl
  · exact hindex .package fun _ => rfl
  · exact .fail

end Constant

namespace ConstantPool

/-! ## Pools -/

/-- The pool holds what was added to it constant by constant. -/
inductive Built : ConstantPool → Prop
  | empty : Built .empty
  | push {p : ConstantPool} (c : Constant) : Built p → Built (p.push c).2

/-- The pool with more constants. -/
def pushAll (p : ConstantPool) (cs : List Constant) : ConstantPool :=
  cs.foldl (fun p c => (p.push c).2) p

@[simp] theorem slots_pushAll (p : ConstantPool) (cs : List Constant) :
    (p.pushAll cs).slots.toList = p.slots.toList ++ cs.flatMap slotsOf := by
  induction cs generalizing p with
  | nil => simp [pushAll]
  | cons c cs ih =>
    have hpush : ((p.push c).2.pushAll cs).slots.toList
        = (p.push c).2.slots.toList ++ cs.flatMap slotsOf := ih (p.push c).2
    rw [pushAll, List.foldl_cons, ← pushAll, hpush, List.flatMap_cons, ← List.append_assoc]
    simp [push]

namespace Built

variable {p : ConstantPool}

theorem add (h : Built p) (c : Constant) : Built (p.add c).2 := by
  unfold ConstantPool.add
  split
  · exact h
  · exact h.push c

theorem pushAll (h : Built p) (cs : List Constant) : Built (p.pushAll cs) := by
  induction cs generalizing p with
  | nil => exact h
  | cons c cs ih => exact ih (h.push c)

/-- The constants in the order in which they were added. -/
theorem exists_constants (h : Built p) : ∃ cs, p = ConstantPool.empty.pushAll cs := by
  induction h with
  | empty => exact ⟨[], rfl⟩
  | @push p c _ ih =>
    obtain ⟨cs, rfl⟩ := ih
    exact ⟨cs ++ [c], by simp [ConstantPool.pushAll]⟩

end Built

/-- All texts of the pool are short enough. -/
def TextsFit (p : ConstantPool) : Prop :=
  ∀ c, some c ∈ p.slots.toList → c.TextFits

/-- The texts fit if all slots pass a test that can be computed. -/
theorem textsFit_of_all {p : ConstantPool}
    (h : p.slots.toList.all (fun slot => slot.all (·.textLength ≤ 65535)) = true) : p.TextsFit := by
  intro c hc
  simpa [Constant.TextFits] using List.all_eq_true.mp h _ hc

theorem slotBytes (cs : List Constant) :
    ((cs.flatMap slotsOf).flatMap fun
      | some c => c.toBytes
      | none => []) = cs.flatMap Constant.toBytes := by
  induction cs with
  | nil => rfl
  | cons c cs ih =>
    rw [List.flatMap_cons, List.flatMap_append, ih, List.flatMap_cons]
    unfold slotsOf
    split <;> simp

/-- The bytes of a pool, constant by constant. -/
theorem toBytes_pushAll {cs : List Constant} (h : (empty.pushAll cs).count ≤ 65535) :
    (empty.pushAll cs).toBytes
      = .ok (Bytes.ofCount (empty.pushAll cs).count ++ cs.flatMap Constant.toBytes) := by
  rw [toBytes, if_neg (Nat.not_lt_of_le h), slots_pushAll, ← slotBytes]
  rfl

theorem count_push (p : ConstantPool) (c : Constant) :
    (p.push c).2.count = p.count + c.slotCount := by
  simp only [count, push, slotsOf, Constant.slotCount]
  split <;> simp

theorem slotCount_pos (c : Constant) : 0 < c.slotCount := by
  unfold Constant.slotCount
  split <;> decide

theorem count_le_pushAll (p : ConstantPool) (cs : List Constant) :
    p.count + cs.length ≤ (p.pushAll cs).count := by
  induction cs generalizing p with
  | nil => exact Nat.le_refl _
  | cons c cs ih =>
    have htail := ih (p.push c).2
    have hpos := slotCount_pos c
    rw [count_push] at htail
    change p.count + (cs.length + 1) ≤ ((p.push c).2.pushAll cs).count
    omega

/-- Constants are read one after the other until the pool is full. -/
theorem reads_readAux {cs : List Constant} {count : Nat} (hfit : ∀ c ∈ cs, c.TextFits)
    {p : ConstantPool} (hcount : (p.pushAll cs).count = count) {fuel : Nat}
    (hfuel : cs.length ≤ fuel) :
    (readAux count fuel p).Reads (cs.flatMap Constant.toBytes) (p.pushAll cs) := by
  induction cs generalizing p fuel with
  | nil =>
    have hfull : ¬ p.count < count := Nat.not_lt_of_le (Nat.le_of_eq hcount.symm)
    cases fuel with
    | zero => exact .pure p
    | succ fuel =>
      rw [readAux, if_neg hfull]
      exact .pure p
  | cons c cs ih =>
    obtain ⟨fuel, rfl⟩ : ∃ k, fuel = k + 1 := ⟨fuel - 1, by simp at hfuel; omega⟩
    have hle := count_le_pushAll p (c :: cs)
    have hroom : p.count < count := by
      rw [hcount, List.length_cons] at hle
      omega
    obtain ⟨hc, hcs⟩ := List.forall_mem_cons.mp hfit
    rw [readAux, if_pos hroom, List.flatMap_cons]
    exact (Constant.reads hc _).bind (ih hcs hcount (by simpa using hfuel))

/-- A pool is read back from its bytes. -/
theorem reads_toBytes {p : ConstantPool} (hbuilt : p.Built) (hfit : p.TextsFit)
    (hcount : p.count ≤ 65535) :
    ∃ bytes, p.toBytes = .ok bytes ∧ ConstantPool.read.Reads bytes p := by
  obtain ⟨cs, rfl⟩ := hbuilt.exists_constants
  refine ⟨_, toBytes_pushAll hcount, ?_⟩
  have hnat : (empty.pushAll cs).count.toUInt16.toNat = (empty.pushAll cs).count :=
    toNat_toUInt16_of_lt (by omega)
  refine (reads_u16 (empty.pushAll cs).count.toUInt16).bind ?_
  rw [hnat]
  refine reads_readAux (fun c hc => hfit c ?_) rfl ?_
  · rw [slots_pushAll, List.mem_append, List.mem_flatMap]
    exact .inr ⟨c, hc, List.mem_cons_self⟩
  · have hle := count_le_pushAll empty cs
    omega

/-! ## Reading first -/

/-- Is the constant at the front of the bytes, if it is a text, encoded as it would be written? -/
def canonicalEntry (index : UInt16) (c : Cursor) : Bool :=
  match Constant.read index c with
  | .ok (.utf8 text, c') => c.rest == (Constant.utf8 text).toBytes ++ c'.rest
  | _ => true

/-- Are the texts encoded as they would be written, from the constant at an index on? -/
def canonicalEntries (count : Nat) : Nat → Nat → Cursor → Bool
  | 0, _, _ => true
  | fuel + 1, index, c =>
    if index < count then
      match Constant.read index.toUInt16 c with
      | .ok (k, c') =>
        canonicalEntry index.toUInt16 c && canonicalEntries count fuel (index + k.slotCount) c'
      | .error _ => true
    else true

/-- Are the texts of the pool at the front of the bytes encoded as they would be written? -/
def canonicalPool (c : Cursor) : Bool :=
  match Reader.u16 c with
  | .ok (count, c') => canonicalEntries count.toNat count.toNat 1 c'
  | .error _ => true

theorem of_canonicalEntry {index : UInt16} {c c' : Cursor} {k : Constant}
    (hcanonical : canonicalEntry index c = true) (h : Constant.read index c = .ok (k, c')) :
    c.rest = k.toBytes ++ c'.rest := by
  obtain ⟨bytes, hbytes, hrest, _⟩ := Constant.takes index c k c' h
  by_cases htext : ∃ text, k = .utf8 text
  · obtain ⟨text, rfl⟩ := htext
    rw [canonicalEntry, h] at hcanonical
    exact beq_iff_eq.mp hcanonical
  · rw [hrest, hbytes fun text ht => htext ⟨text, ht⟩]

/-- Constants that were read are written as they stood there. -/
theorem of_readAux {count fuel : Nat} {p q : ConstantPool} {c c' : Cursor}
    (hcanonical : canonicalEntries count fuel p.count c = true)
    (h : readAux count fuel p c = .ok (q, c')) :
    ∃ cs, q = p.pushAll cs ∧ c.rest = cs.flatMap Constant.toBytes ++ c'.rest := by
  induction fuel generalizing p c with
  | zero =>
    obtain ⟨rfl, rfl⟩ := Prod.mk.inj (pure_eq_ok.mp h)
    exact ⟨[], rfl, rfl⟩
  | succ fuel ih =>
    rw [readAux] at h
    rw [canonicalEntries] at hcanonical
    split_ifs at h hcanonical with hroom
    · obtain ⟨k, c₁, hk, h⟩ := bind_eq_ok.mp h
      rw [hk] at hcanonical
      obtain ⟨hentry, htail⟩ := Bool.and_eq_true_iff.mp hcanonical
      rw [← count_push] at htail
      obtain ⟨cs, rfl, hrest⟩ := ih htail h
      refine ⟨k :: cs, rfl, ?_⟩
      rw [of_canonicalEntry hentry hk, hrest, List.flatMap_cons, List.append_assoc]
    · obtain ⟨rfl, rfl⟩ := Prod.mk.inj (pure_eq_ok.mp h)
      exact ⟨[], rfl, rfl⟩

/-- A pool that was read is written as it stood there, if its texts were canonical and its slots
were declared exactly. -/
theorem of_read {p : ConstantPool} {c c' : Cursor} (hcanonical : canonicalPool c = true)
    (h : ConstantPool.read c = .ok (p, c')) {count : UInt16} {c₁ : Cursor}
    (hcount : Reader.u16 c = .ok (count, c₁)) (hexact : count.toNat = p.count) :
    ∃ bytes, p.toBytes = .ok bytes ∧ c.rest = bytes ++ c'.rest := by
  obtain ⟨n, c₂, hn, h⟩ := bind_eq_ok.mp h
  obtain ⟨rfl, rfl⟩ : n = count ∧ c₂ = c₁ := by
    rw [hn] at hcount
    exact Prod.mk.inj (Except.ok.inj hcount)
  rw [canonicalPool, hn] at hcanonical
  obtain ⟨cs, rfl, hrest⟩ := of_readAux (p := empty) hcanonical h
  obtain ⟨bytes, hbytes, hfirst, _⟩ := Takes.u16 c n c₂ hn
  have hle : (empty.pushAll cs).count ≤ 65535 := by
    rw [← hexact]
    exact Nat.le_of_lt_succ n.toNat_lt
  have hofCount : Bytes.ofCount (empty.pushAll cs).count = Bytes.ofU16 n := by
    rw [Bytes.ofCount, ← hexact]
    simp
  refine ⟨_, toBytes_pushAll hle, ?_⟩
  rw [hfirst, hrest, hbytes, hofCount, List.append_assoc]

/-- A pool that was read is one to which constants were added. -/
theorem built_of_read {p : ConstantPool} {c c' : Cursor} (h : ConstantPool.read c = .ok (p, c')) :
    p.Built := by
  have haux : ∀ (count fuel : Nat) (q : ConstantPool) (c : Cursor), q.Built →
      readAux count fuel q c = .ok (p, c') → p.Built := by
    intro count fuel
    induction fuel with
    | zero =>
      intro q c hq h
      obtain ⟨rfl, rfl⟩ := Prod.mk.inj (pure_eq_ok.mp h)
      exact hq
    | succ fuel ih =>
      intro q c hq h
      rw [readAux] at h
      split_ifs at h
      · obtain ⟨k, c₁, _, h⟩ := bind_eq_ok.mp h
        exact ih _ c₁ (hq.push k) h
      · obtain ⟨rfl, rfl⟩ := Prod.mk.inj (pure_eq_ok.mp h)
        exact hq
  obtain ⟨n, c₁, _, h⟩ := bind_eq_ok.mp h
  exact haux _ _ empty c₁ .empty h

theorem indexable_of_readAux {count fuel : Nat} {p q : ConstantPool} {c c' : Cursor}
    (hcount : count ≤ 65535) (hp : p.Indexable) (h : readAux count fuel p c = .ok (q, c')) :
    q.Indexable := by
  induction fuel generalizing p c with
  | zero =>
    obtain ⟨rfl, rfl⟩ := Prod.mk.inj (pure_eq_ok.mp h)
    exact hp
  | succ fuel ih =>
    rw [readAux] at h
    split_ifs at h with hroom
    · obtain ⟨k, c₁, -, hrest⟩ := bind_eq_ok.mp h
      -- Two slots at most are behind the last index.
      have hslots : k.slotCount ≤ 2 := by
        unfold Constant.slotCount
        split_ifs <;> omega
      have hpush := count_push p k
      simp only [ConstantPool.count] at hroom hpush
      refine ih ?_ hrest
      rw [Indexable]
      omega
    · obtain ⟨rfl, rfl⟩ := Prod.mk.inj (pure_eq_ok.mp h)
      exact hp

/-- Each constant of a pool that was read has an index. -/
theorem indexable_of_read {p : ConstantPool} {c c' : Cursor}
    (h : ConstantPool.read c = .ok (p, c')) : p.Indexable := by
  obtain ⟨n, c₁, -, hrest⟩ := bind_eq_ok.mp h
  exact indexable_of_readAux (Nat.le_of_lt_succ n.toNat_lt) (Nat.zero_le _) hrest

end ConstantPool

end ClassSynth
