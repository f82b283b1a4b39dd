import ClassSynth.Text.Unicode
import Mathlib.Tactic.SplitIfs

/-!
# Texts of string constants

A text is read back from its modified UTF-8. A reader of constants looks for plain UTF-8 first. Bytes
that are well-formed in both encodings stand for the same text, so the first attempt does no harm
(`ModifiedUtf8.decoders_agree`).
-/

namespace ClassSynth

theorem toNat_toUInt8_of_lt {n : Nat} (h : n < 0x100) : n.toUInt8.toNat = n := by
  rw [Nat.toUInt8_eq, UInt8.toNat_ofNat']
  exact Nat.mod_eq_of_lt h

theorem toNat_toUInt16_of_lt {n : Nat} (h : n < 0x10000) : n.toUInt16.toNat = n := by
  rw [Nat.toUInt16_eq, UInt16.toNat_ofNat']
  exact Nat.mod_eq_of_lt h

/-- Characters are no surrogates. -/
theorem char_cases (c : Char) : c.toNat < 0xd800 ∨ 0xdfff < c.toNat ∧ c.toNat < 0x110000 :=
  c.valid

/-! ## UTF-16 -/

namespace Utf16

theorem isHigh_eq (u : UInt16) : isHigh u = decide (0xd800 ≤ u.toNat ∧ u.toNat ≤ 0xdbff) := by
  simp [isHigh, UInt16.le_iff_toNat_le, Bool.decide_and]

theorem isLow_eq (u : UInt16) : isLow u = decide (0xdc00 ≤ u.toNat ∧ u.toNat ≤ 0xdfff) := by
  simp [isLow, UInt16.le_iff_toNat_le, Bool.decide_and]

/-- The units of a character outside the basic plane. -/
theorem toNat_pair {c : Char} (hc : ¬ c.toNat < 0x10000) :
    (0xd800 + (c.toNat - 0x10000) / 0x400).toUInt16.toNat = 0xd800 + (c.toNat - 0x10000) / 0x400 ∧
      (0xdc00 + (c.toNat - 0x10000) % 0x400).toUInt16.toNat
        = 0xdc00 + (c.toNat - 0x10000) % 0x400 := by
  have hcases := char_cases c
  exact ⟨toNat_toUInt16_of_lt (by omega), toNat_toUInt16_of_lt (by omega)⟩

/-- A character is read back from its units. -/
theorem decodeAux_encodeChar (c : Char) (done : List Char) (rest : List UInt16) :
    decodeAux done (encodeChar c ++ rest) = decodeAux (c :: done) rest := by
  have hcases := char_cases c
  by_cases hc : c.toNat < 0x10000
  · have hunit := toNat_toUInt16_of_lt hc
    have hhigh : isHigh c.toNat.toUInt16 = false := by
      rw [isHigh_eq, hunit]
      exact decide_eq_false (by omega)
    have hlow : isLow c.toNat.toUInt16 = false := by
      rw [isLow_eq, hunit]
      exact decide_eq_false (by omega)
    rw [encodeChar, if_pos hc, List.singleton_append, decodeAux.eq_def]
    simp only [hhigh, hlow, hunit, Char.ofNat_toNat, Bool.false_eq_true, if_false]
  · obtain ⟨hfirst, hsecond⟩ := toNat_pair hc
    have hhigh : isHigh (0xd800 + (c.toNat - 0x10000) / 0x400).toUInt16 = true := by
      rw [isHigh_eq, hfirst]
      exact decide_eq_true (by omega)
    have hlow : isLow (0xdc00 + (c.toNat - 0x10000) % 0x400).toUInt16 = true := by
      rw [isLow_eq, hsecond]
      exact decide_eq_true (by omega)
    have hjoin : joinPair (0xd800 + (c.toNat - 0x10000) / 0x400).toUInt16
        (0xdc00 + (c.toNat - 0x10000) % 0x400).toUInt16 = c := by
      have hnumber : 0x10000 + (0xd800 + (c.toNat - 0x10000) / 0x400 - 0xd800) * 0x400
          + (0xdc00 + (c.toNat - 0x10000) % 0x400 - 0xdc00) = c.toNat := by omega
      rw [joinPair, hfirst, hsecond, hnumber, Char.ofNat_toNat]
    rw [encodeChar, if_neg hc, List.cons_append, List.singleton_append, decodeAux.eq_def]
    simp only [hhigh, hlow, hjoin, if_true]

/-- Texts are read back from their units. -/
theorem decode_encode (cs : List Char) : decode (encode cs) = some cs := by
  have haux : ∀ done, decodeAux done (encode cs) = some (done.reverse ++ cs) := by
    induction cs with
    | nil => exact fun done => by simp [encode, decodeAux]
    | cons c cs ih =>
      intro done
      rw [encode, List.flatMap_cons, decodeAux_encodeChar, ← encode, ih]
      simp
  exact haux []

end Utf16

namespace ModifiedUtf8

/-! ## Units -/

/-- What is read of a first byte is decided by its number. -/
theorem notLow_of_le {a : UInt8} (h : 0x80 ≤ a.toNat) : ¬ a < 0x80 :=
  fun ha => Nat.not_lt_of_le h (by simpa using UInt8.lt_iff_toNat_lt.mp ha)

theorem nextUnit?_one {a : UInt8} (h : a.toNat < 0x80) (rest : List UInt8) :
    nextUnit? (a :: rest) = some (a.toUInt16, rest) := by
  have ha : a < 0x80 := UInt8.lt_iff_toNat_lt.mpr h
  rw [nextUnit?.eq_def]
  exact if_pos ha

theorem nextUnit?_two {a : UInt8} (h : 0xc0 ≤ a.toNat ∧ a.toNat ≤ 0xdf) (b : UInt8)
    (rest : List UInt8) :
    nextUnit? (a :: b :: rest)
      = some ((a.toNat % 32 * 64 + b.toNat % 64).toUInt16, rest) := by
  have hlow : ¬ a < 0x80 := notLow_of_le (by omega)
  have htwo : (0xc0 ≤ a && a ≤ 0xdf) = true := by
    simpa [UInt8.le_iff_toNat_le] using h
  rw [nextUnit?, if_neg hlow, if_pos htwo]

theorem nextUnit?_three {a : UInt8} (h : 0xe0 ≤ a.toNat ∧ a.toNat ≤ 0xef) (b c : UInt8)
    (rest : List UInt8) :
    nextUnit? (a :: b :: c :: rest)
      = some ((a.toNat % 16 * 4096 + b.toNat % 64 * 64 + c.toNat % 64).toUInt16, rest) := by
  have hlow : ¬ a < 0x80 := notLow_of_le (by omega)
  have htwo : (0xc0 ≤ a && a ≤ 0xdf) = false := by
    simp [UInt8.le_iff_toNat_le]
    omega
  have hthree : (0xe0 ≤ a && a ≤ 0xef) = true := by
    simpa [UInt8.le_iff_toNat_le] using h
  rw [nextUnit?, if_neg hlow, if_neg (by rw [htwo]; decide), if_pos hthree]

/-- A unit is read back from its bytes. -/
theorem nextUnit?_encodeUnit (u : UInt16) (rest : List UInt8) :
    nextUnit? (encodeUnit u ++ rest) = some (u, rest) := by
  have hu : u.toNat < 65536 := u.toNat_lt
  simp only [encodeUnit]
  split_ifs with hone htwo
  · have ha : u.toNat.toUInt8.toNat = u.toNat := toNat_toUInt8_of_lt (by omega)
    rw [List.singleton_append, nextUnit?_one (by omega)]
    have hback : u.toNat.toUInt8.toUInt16 = u := UInt16.toNat_inj.mp (by simpa using ha)
    rw [hback]
  · have ha : (0xc0 + u.toNat / 64).toUInt8.toNat = 0xc0 + u.toNat / 64 :=
      toNat_toUInt8_of_lt (by omega)
    have hb : (0x80 + u.toNat % 64).toUInt8.toNat = 0x80 + u.toNat % 64 :=
      toNat_toUInt8_of_lt (by omega)
    have hnumber :
        (0xc0 + u.toNat / 64) % 32 * 64 + (0x80 + u.toNat % 64) % 64 = u.toNat := by omega
    rw [List.cons_append, List.singleton_append, nextUnit?_two (by omega), ha, hb, hnumber]
    simp
  · have ha : (0xe0 + u.toNat / 4096).toUInt8.toNat = 0xe0 + u.toNat / 4096 :=
      toNat_toUInt8_of_lt (by omega)
    have hb : (0x80 + u.toNat / 64 % 64).toUInt8.toNat = 0x80 + u.toNat / 64 % 64 :=
      toNat_toUInt8_of_lt (by omega)
    have hc : (0x80 + u.toNat % 64).toUInt8.toNat = 0x80 + u.toNat % 64 :=
      toNat_toUInt8_of_lt (by omega)
    have hnumber : (0xe0 + u.toNat / 4096) % 16 * 4096 + (0x80 + u.toNat / 64 % 64) % 64 * 64
        + (0x80 + u.toNat % 64) % 64 = u.toNat := by omega
    rw [List.cons_append, List.cons_append, List.singleton_append, nextUnit?_three (by omega), ha,
      hb, hc, hnumber]
    simp

theorem length_encodeUnit_pos (u : UInt16) : 0 < (encodeUnit u).length := by
  simp only [encodeUnit]
  split_ifs <;> simp

theorem units_flatMap (us : List UInt16) : units (us.flatMap encodeUnit) = some us := by
  have haux : ∀ fuel done, (us.flatMap encodeUnit).length ≤ fuel →
      unitsAux fuel done (us.flatMap encodeUnit) = some (done.reverse ++ us) := by
    induction us with
    | nil => exact fun fuel done _ => by cases fuel <;> simp [unitsAux]
    | cons u us ih =>
      intro fuel done hfuel
      have hpos := length_encodeUnit_pos u
      rw [List.flatMap_cons] at hfuel ⊢
      rw [List.length_append] at hfuel
      obtain ⟨fuel, rfl⟩ : ∃ k, fuel = k + 1 := ⟨fuel - 1, by omega⟩
      have hstep : unitsAux (fuel + 1) done (encodeUnit u ++ us.flatMap encodeUnit)
          = unitsAux fuel (u :: done) (us.flatMap encodeUnit) := by
        obtain ⟨b, bs, hbs⟩ := List.exists_cons_of_length_pos hpos
        have hnext := nextUnit?_encodeUnit u (us.flatMap encodeUnit)
        rw [hbs, List.cons_append] at hnext ⊢
        rw [unitsAux, hnext]
      rw [hstep, ih fuel (u :: done) (by omega)]
      simp
  exact haux _ [] (Nat.le_refl _)

/-- Texts are read back from modified UTF-8. -/
theorem decode_encode (s : String) : decode (encode s) = some s := by
  rw [decode, encode, units_flatMap]
  simp [Utf16.decode_encode]

/-- No byte of modified UTF-8 is zero, and none starts a form of four bytes. -/
theorem of_mem_encode {s : String} {b : UInt8} (h : b ∈ encode s) : b ≠ 0 ∧ b < 0xf0 := by
  obtain ⟨u, _, hb⟩ := List.mem_flatMap.mp h
  have hu : u.toNat < 65536 := u.toNat_lt
  have hbyte : ∀ n : Nat, 0 < n → n < 0xf0 → n.toUInt8 ≠ 0 ∧ n.toUInt8 < 0xf0 := by
    intro n hpos hlt
    have hn := toNat_toUInt8_of_lt (show n < 0x100 by omega)
    refine ⟨fun hzero => ?_, UInt8.lt_iff_toNat_lt.mpr (hn.symm ▸ hlt)⟩
    rw [hzero] at hn
    exact absurd hn (Nat.ne_of_lt hpos)
  simp only [encodeUnit] at hb
  split_ifs at hb with hone htwo
  all_goals simp only [List.mem_cons, List.not_mem_nil, or_false] at hb
  · exact hb ▸ hbyte _ (by omega) (by omega)
  · obtain rfl | rfl := hb
    all_goals exact hbyte _ (by omega) (by omega)
  · obtain rfl | rfl | rfl := hb
    all_goals exact hbyte _ (by omega) (by omega)

/-! ## Plain UTF-8

Bytes that are well-formed in both encodings stand for the same text: both take the same number of
bytes for the next character, and find the same number in them.
-/

/-- A unit takes one, two or three bytes. -/
theorem of_nextUnit? {bytes rest : List UInt8} {u : UInt16}
    (h : nextUnit? bytes = some (u, rest)) :
    (∃ a, a.toNat < 0x80 ∧ bytes = a :: rest ∧ u = a.toNat.toUInt16) ∨
      (∃ a b, (0xc0 ≤ a.toNat ∧ a.toNat ≤ 0xdf) ∧ bytes = a :: b :: rest ∧
        u = (a.toNat % 32 * 64 + b.toNat % 64).toUInt16) ∨
      ∃ a b c, (0xe0 ≤ a.toNat ∧ a.toNat ≤ 0xef) ∧ bytes = a :: b :: c :: rest ∧
        u = (a.toNat % 16 * 4096 + b.toNat % 64 * 64 + c.toNat % 64).toUInt16 := by
  cases bytes with
  | nil => cases h
  | cons a bytes =>
    rw [nextUnit?.eq_def] at h
    dsimp only at h
    split_ifs at h with hone htwo hthree
    · obtain ⟨rfl, rfl⟩ := Prod.mk.inj (Option.some.inj h)
      exact .inl ⟨a, by simpa using UInt8.lt_iff_toNat_lt.mp hone, rfl, UInt16.toNat_inj.mp (by simp)⟩
    · have ha : 0xc0 ≤ a.toNat ∧ a.toNat ≤ 0xdf := by
        simpa [UInt8.le_iff_toNat_le] using htwo
      cases bytes with
      | nil => cases h
      | cons b bytes =>
        obtain ⟨rfl, rfl⟩ := Prod.mk.inj (Option.some.inj h)
        exact .inr (.inl ⟨a, b, ha, rfl, rfl⟩)
    · have ha : 0xe0 ≤ a.toNat ∧ a.toNat ≤ 0xef := by
        simpa [UInt8.le_iff_toNat_le] using hthree
      match bytes, h with
      | b :: c :: bytes, h =>
        obtain ⟨rfl, rfl⟩ := Prod.mk.inj (Option.some.inj h)
        exact .inr (.inr ⟨a, b, c, ha, rfl, rfl⟩)

theorem next?_one {a : UInt8} (h : a.toNat < 0x80) (rest : List UInt8) :
    Utf8.next? (a :: rest) = some (Char.ofNat a.toNat, rest) := by
  have ha : a < 0x80 := UInt8.lt_iff_toNat_lt.mpr h
  rw [Utf8.next?.eq_def]
  exact if_pos ha

/-- What is read of two bytes; the shortest form of no character starts with the byte `0xc0`. -/
theorem of_next?_two {a b : UInt8} {c : Char} {rest rest' : List UInt8}
    (ha : 0xc0 ≤ a.toNat ∧ a.toNat ≤ 0xdf) (h : Utf8.next? (a :: b :: rest) = some (c, rest')) :
    c = Char.ofNat (a.toNat % 32 * 64 + b.toNat % 64) ∧ rest' = rest := by
  have hthree : (0xe0 ≤ a && a ≤ 0xef) = false := by
    simp [UInt8.le_iff_toNat_le]
    omega
  have hfour : (0xf0 ≤ a && a ≤ 0xf4) = false := by
    simp [UInt8.le_iff_toNat_le]
    omega
  rw [Utf8.next?.eq_def] at h
  simp only [notLow_of_le (Nat.le_trans (by decide) ha.1), hthree, hfour, if_false,
    Bool.false_eq_true] at h
  split_ifs at h
  obtain ⟨rfl, rfl⟩ := Prod.mk.inj (Option.some.inj h)
  exact ⟨rfl, rfl⟩

/-- What is read of three bytes is no surrogate. -/
theorem of_next?_three {a b d : UInt8} {c : Char} {rest rest' : List UInt8}
    (ha : 0xe0 ≤ a.toNat ∧ a.toNat ≤ 0xef)
    (h : Utf8.next? (a :: b :: d :: rest) = some (c, rest')) :
    c = Char.ofNat (a.toNat % 16 * 4096 + b.toNat % 64 * 64 + d.toNat % 64) ∧ rest' = rest ∧
      ¬ (0xd800 ≤ a.toNat % 16 * 4096 + b.toNat % 64 * 64 + d.toNat % 64 ∧
        a.toNat % 16 * 4096 + b.toNat % 64 * 64 + d.toNat % 64 ≤ 0xdfff) := by
  have htwo : (0xc2 ≤ a && a ≤ 0xdf) = false := by
    simp [UInt8.le_iff_toNat_le]
    omega
  have hthree : (0xe0 ≤ a && a ≤ 0xef) = true := by
    simpa [UInt8.le_iff_toNat_le] using ha
  rw [Utf8.next?.eq_def] at h
  dsimp only [Utf8.payload] at h
  rw [if_neg (notLow_of_le (Nat.le_trans (by decide) ha.1)), if_neg (by rw [htwo]; decide),
    if_pos hthree] at h
  split_ifs at h with hwell
  obtain ⟨rfl, rfl⟩ := Prod.mk.inj (Option.some.inj h)
  refine ⟨rfl, rfl, ?_⟩
  simp only [Bool.and_eq_true, Bool.not_eq_true', Bool.and_eq_false_iff, decide_eq_true_eq,
    decide_eq_false_iff_not] at hwell
  omega

/-- A character of the basic plane is one unit. -/
theorem encodeChar_ofNat {n : Nat} (h : n < 0xd800 ∨ 0xdfff < n ∧ n < 0x10000) :
    Utf16.encodeChar (Char.ofNat n) = [n.toUInt16] := by
  have hvalid : n.isValidChar := by
    unfold Nat.isValidChar
    omega
  have hn : (Char.ofNat n).toNat = n := by
    rw [Char.ofNat, dif_pos hvalid]
    rfl
  rw [Utf16.encodeChar, hn]
  exact if_pos (by omega)

/-- The next character and the next unit are the same, if both can be read. -/
theorem encodeChar_of_next {bytes rest rest' : List UInt8} {c : Char} {u : UInt16}
    (hchar : Utf8.next? bytes = some (c, rest)) (hunit : nextUnit? bytes = some (u, rest')) :
    Utf16.encodeChar c = [u] ∧ rest' = rest := by
  obtain ⟨a, ha, rfl, rfl⟩ | ⟨a, b, ha, rfl, rfl⟩ | ⟨a, b, d, ha, rfl, rfl⟩ := of_nextUnit? hunit
  · rw [next?_one ha] at hchar
    obtain ⟨rfl, rfl⟩ := Prod.mk.inj (Option.some.inj hchar)
    exact ⟨encodeChar_ofNat (by omega), rfl⟩
  · obtain ⟨rfl, rfl⟩ := of_next?_two ha hchar
    exact ⟨encodeChar_ofNat (by omega), rfl⟩
  · obtain ⟨rfl, rfl, hnot⟩ := of_next?_three ha hchar
    exact ⟨encodeChar_ofNat (by omega), rfl⟩

/-- The units of bytes that are plain UTF-8 are those of the text. -/
theorem units_of_decode {bytes : List UInt8} {cs : List Char} {us : List UInt16}
    (hchars : Utf8.decode bytes = some cs) (hunits : units bytes = some us) :
    us = Utf16.encode cs := by
  -- The rounds of both readers go together; what was read so far is the same text.
  have haux : ∀ fuel fuel' bytes done done',
      Utf8.decodeAux fuel done bytes = some cs → unitsAux fuel' done' bytes = some us →
      done'.reverse = Utf16.encode done.reverse → us = Utf16.encode cs := by
    intro fuel
    induction fuel with
    | zero =>
      intro fuel' bytes done done' hchars hunits hdone
      cases bytes with
      | nil =>
        rw [Utf8.decodeAux, Option.some.injEq] at hchars
        rw [unitsAux, Option.some.injEq] at hunits
        rw [← hchars, ← hunits, hdone]
      | cons b bytes => cases hchars
    | succ fuel ih =>
      intro fuel' bytes done done' hchars hunits hdone
      cases bytes with
      | nil =>
        rw [Utf8.decodeAux, Option.some.injEq] at hchars
        rw [unitsAux, Option.some.injEq] at hunits
        rw [← hchars, ← hunits, hdone]
      | cons b bytes =>
        cases fuel' with
        | zero => cases hunits
        | succ fuel' =>
          rw [Utf8.decodeAux] at hchars
          rw [unitsAux] at hunits
          split at hchars
          next c rest hchar =>
            split at hunits
            next u rest' hunit =>
              obtain ⟨hsame, rfl⟩ := encodeChar_of_next hchar hunit
              refine ih fuel' _ (c :: done) (u :: done') hchars hunits ?_
              rw [List.reverse_cons, List.reverse_cons, hdone, Utf16.encode, Utf16.encode,
                List.flatMap_append, List.flatMap_singleton, hsame]
            next => cases hunits
          next => cases hchars
  exact haux _ _ bytes [] [] hchars hunits rfl

/-- Bytes of both encodings stand for the same text. -/
theorem eq_of_decode {bytes : List UInt8} {cs : List Char} {t : String}
    (hplain : Utf8.decode bytes = some cs) (h : decode bytes = some t) : String.ofList cs = t := by
  obtain ⟨us, hunits, h⟩ := Option.bind_eq_some_iff.mp h
  rw [units_of_decode hplain hunits, Utf16.decode_encode] at h
  exact Option.some.inj h

/-- The text of a string constant is read back from its bytes. -/
theorem decodeConstant_encode (s : String) : decodeConstant (encode s) = some s := by
  unfold decodeConstant
  split
  · next cs hcs =>
    have hzero : (encode s).contains 0 = false := by
      rw [List.contains_eq_mem, decide_eq_false_iff_not]
      exact fun hmem => (of_mem_encode hmem).1 rfl
    rw [hzero, eq_of_decode hcs (decode_encode s)]
    rfl
  · exact decode_encode s

/-- **Texts.** Both decoders read every text back from its bytes, which have neither a zero byte nor
one that starts a form of four bytes. Where bytes can be read as plain UTF-8 and as modified UTF-8,
it makes no difference which is tried first. -/
theorem decoders_agree :
    (∀ s : String, (∀ b ∈ encode s, b ≠ 0 ∧ b < 0xf0) ∧ decode (encode s) = some s ∧
      decodeConstant (encode s) = some s) ∧
    ∀ (bytes : List UInt8) (cs : List Char) (t : String), Utf8.decode bytes = some cs →
      0 ∉ bytes → decode bytes = some t →
      decodeConstant bytes = some (String.ofList cs) ∧ String.ofList cs = t := by
  refine ⟨fun s => ⟨fun b => of_mem_encode, decode_encode s, decodeConstant_encode s⟩,
    fun bytes cs t hplain hzero h => ⟨?_, eq_of_decode hplain h⟩⟩
  have hcontains : bytes.contains 0 = false := by
    rw [List.contains_eq_mem, decide_eq_false_iff_not]
    exact hzero
  rw [decodeConstant, hplain]
  dsimp only
  rw [hcontains]
  rfl

/-- A zero character and one outside the basic plane are no plain UTF-8; other bytes are both. -/
theorem decoders_agree_mixed :
    encode "\x00😀" = [0xc0, 0x80, 0xed, 0xa0, 0xbd, 0xed, 0xb8, 0x80] ∧
      Utf8.decode (encode "\x00😀") = none ∧ decodeConstant (encode "\x00😀") = some "\x00😀" ∧
      decodeConstant [0x61, 0xc3, 0xa9, 0xe6, 0x97, 0xa5] = some "aé日" ∧
      decode [0x61, 0xc3, 0xa9, 0xe6, 0x97, 0xa5] = some "aé日" := by
  obtain ⟨hback, hagree⟩ := decoders_agree
  have hmodified : decode [0x61, 0xc3, 0xa9, 0xe6, 0x97, 0xa5] = some "aé日" := by decide +kernel
  have hplain : Utf8.decode [0x61, 0xc3, 0xa9, 0xe6, 0x97, 0xa5] = some "aé日".toList := by
    decide +kernel
  obtain ⟨hconstant, hsame⟩ := hagree _ _ _ hplain (by decide) hmodified
  exact ⟨by decide +kernel, by decide +kernel, (hback _).2.2, hsame ▸ hconstant, hmodified⟩

end ModifiedUtf8

end ClassSynth
