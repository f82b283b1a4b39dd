import ClassSynth.Proofs.Template.Grammar
import Mathlib.Data.List.Induction
import Mathlib.Data.List.TakeWhile
import Mathlib.Tactic.IntervalCases

/-!
# The tokens of a text
-/

namespace ClassSynth

/-! ## Digits -/

theorem exists_digitChar {c : Char} (h : c.isDigit = true) : ∃ d < 10, c = d.digitChar := by
  have hrange : 48 ≤ c.toNat ∧ c.toNat ≤ 57 := by
    simpa [Char.isDigit, UInt32.le_iff_toNat_le] using h
  refine ⟨c.toNat - 48, by omega, ?_⟩
  rw [← Char.ofNat_toNat c]
  generalize c.toNat = n at hrange ⊢
  obtain ⟨hlow, hhigh⟩ := hrange
  interval_cases n <;> rfl

theorem exists_numeral {digits : List Char} (hdigits : ∀ c ∈ digits, c.isDigit = true)
    (hne : digits ≠ []) : ∃ n, Numeral digits n := by
  induction digits using List.reverseRecOn with
  | nil => exact absurd rfl hne
  | append_singleton digits c ih =>
    obtain ⟨d, hd, rfl⟩ := exists_digitChar (hdigits c (by simp))
    obtain rfl | hne := eq_or_ne digits []
    · exact ⟨d, .digit hd⟩
    · obtain ⟨n, hn⟩ := ih (fun c hc => hdigits c (by simp [hc])) hne
      exact ⟨_, hn.more hd⟩

/-- What a run of digits is a numeral of. -/
theorem exists_numeral_takeWhile {c : Char} (rest : List Char) (hc : c.isDigit = true) :
    ∃ n, Numeral (c :: rest.takeWhile Char.isDigit) n := by
  refine exists_numeral (fun d hd => ?_) (List.cons_ne_nil _ _)
  obtain rfl | hd := List.mem_cons.mp hd
  · exact hc
  · exact List.mem_takeWhile_imp hd

namespace Token

/-- A closed string literal ends with its quote. -/
theorem of_stringBody {cs text rest : List Char} (h : stringBody cs = (text, true, rest)) :
    ∃ raw value, text = raw ++ ['"'] ∧ cs = text ++ rest ∧ Quotes raw value := by
  fun_induction stringBody cs generalizing text with
  | case1 => cases h
  | case2 rest =>
    obtain ⟨rfl, -, rfl⟩ := by simpa using h
    exact ⟨[], [], rfl, rfl, .nil⟩
  | case3 => cases h
  | case4 c rest hc text' closed rest' heq ih =>
    obtain ⟨rfl, rfl, rfl⟩ := by simpa using h
    obtain ⟨raw, value, rfl, hcs, hraw⟩ := ih heq
    exact ⟨'\\' :: c :: raw, _, rfl, by rw [hcs]; rfl, .escape (by simpa using hc) hraw⟩
  | case5 => cases h
  | case6 c rest hquote hescape hsingle text' closed rest' heq ih =>
    obtain ⟨rfl, rfl, rfl⟩ := by simpa using h
    obtain ⟨raw, value, rfl, hcs, hraw⟩ := ih heq
    have hplain : c ≠ '\\' := fun hc =>
      match rest, hsingle hc, hescape with
      | [], hsingle, _ => hsingle rfl
      | d :: rest, _, hescape => hescape d rest hc rfl
    exact ⟨c :: raw, c :: value, rfl, by rw [hcs]; rfl, .plain hquote hplain hraw⟩

/-- A word is a keyword or a name. -/
theorem spelled_of_word {c : Char} {rest : List Char} (offset : Nat)
    (hc : isNameStart c = true) (hrest : ∀ d ∈ rest, isNamePart d = true) :
    (Token.mk (wordKind (c :: rest)) (String.ofList (c :: rest)) offset).Spelled := by
  by_cases hword : wordKind (c :: rest) = .identifier
  · rw [hword, Token.Spelled, String.toList_ofList]
    exact ⟨c, rest, rfl, hc, hrest, hword⟩
  · unfold wordKind at hword ⊢
    split_ifs at hword ⊢ <;> trivial

/-- The characters of a token are the first ones, and its kind allows them. -/
theorem of_next {c : Char} {rest more text : List Char} {kind : TokenKind} (offset : Nat)
    (h : next c rest = .ok (kind, text, more)) :
    c :: rest = text ++ more ∧ text ≠ [] ∧
      (Token.mk kind (String.ofList text) offset).Spelled := by
  revert h
  fun_cases next c rest <;> intro h
  case case1 | case2 | case3 | case4 | case5 | case11 | case12 =>
    cases h
    exact ⟨rfl, List.cons_ne_nil _ _, trivial⟩
  case case10 | case14 | case16 | case17 => cases h
  case case6 =>
    cases h
    exact ⟨by simp, List.cons_ne_nil _ _, trivial⟩
  case case7 hdigit _ =>
    cases h
    obtain ⟨n, hn⟩ := exists_numeral_takeWhile rest hdigit
    exact ⟨by simp, List.cons_ne_nil _ _, _, n, .inl (String.toList_ofList), hn⟩
  case case8 hstart word =>
    obtain ⟨rfl, hparts⟩ := Prod.mk.inj (Except.ok.inj h)
    obtain ⟨rfl, rfl⟩ := Prod.mk.inj hparts
    exact ⟨by simp [word], List.cons_ne_nil _ _,
      spelled_of_word offset hstart fun d hd => List.mem_takeWhile_imp hd⟩
  case case9 hquote hbody =>
    cases h
    obtain ⟨raw, value, rfl, rfl, hraw⟩ := of_stringBody hbody
    rw [beq_iff_eq] at hquote
    subst hquote
    exact ⟨rfl, List.cons_ne_nil _ _, raw, value, String.toList_ofList, hraw⟩
  case case13 d tail _ hdigit _ _ _ _ _ _ _ _ _ _ =>
    cases h
    obtain ⟨n, hn⟩ := exists_numeral_takeWhile tail hdigit
    rw [List.takeWhile_cons_of_pos hdigit, List.dropWhile_cons_of_pos hdigit]
    exact ⟨by simp, List.cons_ne_nil _ _, _, n, String.toList_ofList, hn⟩
  case case15 d tail hdigit _ _ _ _ _ _ _ _ _ _ =>
    cases h
    obtain ⟨n, hn⟩ := exists_numeral_takeWhile tail hdigit
    rw [List.takeWhile_cons_of_pos hdigit, List.dropWhile_cons_of_pos hdigit]
    exact ⟨by simp, List.cons_ne_nil _ _, _, n, .inr String.toList_ofList, hn⟩

/-! ## Texts -/

/-- The text is cut into the tokens; it starts at the offset. -/
inductive Cut : Nat → List Char → List Token → Prop
  | nil {offset : Nat} : Cut offset [] []
  | blank {offset : Nat} {c : Char} {rest text more : List Char} {ts : List Token}
    (h : next c rest = .ok (.blank, text, more)) (hmore : Cut (offset + byteLength text) more ts) :
    Cut offset (c :: rest) ts
  | token {offset : Nat} {c : Char} {rest text more : List Char} {kind : TokenKind}
    {ts : List Token} (h : next c rest = .ok (kind, text, more)) (hkind : kind ≠ .blank)
    (hmore : Cut (offset + byteLength text) more ts) :
    Cut offset (c :: rest) ({ kind, text := String.ofList text, offset } :: ts)

theorem Cut.spelled {offset : Nat} {cs : List Char} {ts : List Token} (h : Cut offset cs ts) :
    ∀ x ∈ ts, x.Spelled := by
  induction h with
  | nil => simp
  | blank _ _ ih => exact ih
  | token h _ _ ih =>
    intro x hx
    obtain rfl | hx := List.mem_cons.mp hx
    · exact (of_next _ h).2.2
    · exact ih x hx

section

variable {offset : Nat} {c : Char} {rest text more : List Char} {kind : TokenKind} {ts : List Token}

theorem cut_nil : Cut offset [] ts ↔ ts = [] := by
  constructor
  · rintro ⟨⟩
    rfl
  · rintro rfl
    exact .nil

theorem cut_of_blank (h : next c rest = .ok (.blank, text, more)) :
    Cut offset (c :: rest) ts ↔ Cut (offset + byteLength text) more ts := by
  refine ⟨fun hcut => ?_, .blank h⟩
  cases hcut with
  | blank h' hmore =>
    cases h.symm.trans h'
    exact hmore
  | token h' hkind =>
    cases h.symm.trans h'
    exact absurd rfl hkind

theorem cut_of_token (h : next c rest = .ok (kind, text, more)) (hkind : kind ≠ .blank) :
    Cut offset (c :: rest) ts ↔ ∃ us, ts = { kind, text := String.ofList text, offset } :: us ∧
      Cut (offset + byteLength text) more us := by
  constructor
  · intro hcut
    cases hcut with
    | blank h' =>
      cases h.symm.trans h'
      exact absurd rfl hkind
    | token h' _ hmore =>
      cases h.symm.trans h'
      exact ⟨_, rfl, hmore⟩
  · rintro ⟨us, rfl, hmore⟩
    exact .token h hkind hmore

theorem not_cut_of_error (h : next c rest = .error text) : ¬ Cut offset (c :: rest) ts := by
  rintro (_ | h' | h')
  · cases h.symm.trans h'
  · cases h.symm.trans h'

theorem length_of_next (h : next c rest = .ok (kind, text, more)) : more.length ≤ rest.length := by
  obtain ⟨happend, hne, -⟩ := of_next 0 h
  have hlength := congrArg List.length happend
  have hpos := List.length_pos_iff.mpr hne
  rw [List.length_cons, List.length_append] at hlength
  omega

end

/-- With enough fuel, scanning finds the only way to cut the text. -/
theorem scanAux_eq_ok {fuel offset : Nat} {cs : List Char} {done all : List Token}
    (hfuel : cs.length ≤ fuel) : scanAux fuel done offset cs = .ok all ↔
      ∃ ts, Cut offset cs ts ∧ all = done.reverse ++ ts := by
  induction fuel generalizing offset cs done with
  | zero =>
    obtain rfl := List.length_eq_zero_iff.mp (Nat.le_zero.mp hfuel)
    simp [scanAux, cut_nil, eq_comm]
  | succ fuel ih =>
    obtain _ | ⟨c, rest⟩ := cs
    · simp [scanAux, cut_nil, eq_comm]
    · rw [scanAux]
      cases hnext : next c rest with
      | error text => simp [not_cut_of_error hnext]
      | ok r =>
        obtain ⟨kind, text, more⟩ := r
        have hmore : more.length ≤ fuel :=
          (length_of_next hnext).trans (Nat.le_of_succ_le_succ hfuel)
        dsimp only
        split_ifs with hkind
        · subst hkind
          simp only [ih hmore, cut_of_blank hnext]
        · simp only [ih hmore, cut_of_token hnext hkind, List.reverse_cons, List.append_assoc,
            List.singleton_append]
          constructor
          · rintro ⟨us, hus, rfl⟩
            exact ⟨_, ⟨us, rfl, hus⟩, rfl⟩
          · rintro ⟨ts, ⟨us, rfl, hus⟩, rfl⟩
            exact ⟨us, hus, rfl⟩

theorem scan_eq_ok {source : String} {ts : List Token} :
    scan source = .ok ts ↔ Cut 0 source.toList ts := by
  rw [scan, scanAux_eq_ok le_rfl]
  simp

end Token

end ClassSynth
