import ClassSynth.Proofs.Template.Tokens

/-!
# Texts that are cut where they were put together

A text renders tokens if it is cut into them whatever follows, as long as no token goes on there:
no letter, digit, underscore or dollar sign. Such texts can be put together, and characters that
are tokens by themselves stand between any of them.

* `Token.Renders`: the text is cut into tokens with a property.
-/

namespace ClassSynth

namespace Token

/-- No token goes on here. -/
def Apart (rest : List Char) : Prop := rest.head?.any isNamePart = false

theorem apart_nil : Apart [] := rfl

theorem apart_cons {c : Char} {rest : List Char} (h : isNamePart c = false) : Apart (c :: rest) := h

/-- Whatever follows, the text is cut into tokens with the property. -/
def Renders (text : String) (P : List Token → Prop) : Prop :=
  ∀ rest, Apart rest → ∀ offset, ∃ ts offset', P ts ∧
    ∀ us, Cut offset' rest us → Cut offset (text.toList ++ rest) (ts ++ us)

variable {s s' : String} {P Q R : List Token → Prop} {kind : TokenKind}

theorem Renders.mono (h : Renders s P) (hPQ : ∀ ts, P ts → Q ts) : Renders s Q := by
  intro rest hrest offset
  obtain ⟨ts, offset', hts, hcut⟩ := h rest hrest offset
  exact ⟨ts, offset', hPQ ts hts, hcut⟩

theorem renders_empty : Renders "" (· = []) :=
  fun _ _ offset => ⟨[], offset, rfl, fun _ h => h⟩

/-- One text behind the other, if the second one goes on with no token of the first one. -/
theorem Renders.append (h : Renders s P) (h' : Renders s' Q)
    (hapart : ∀ rest, Apart rest → Apart (s'.toList ++ rest)) :
    Renders (s ++ s') fun ts => ∃ as bs, ts = as ++ bs ∧ P as ∧ Q bs := by
  intro rest hrest offset
  obtain ⟨as, offset₁, has, hcut⟩ := h _ (hapart rest hrest) offset
  obtain ⟨bs, offset₂, hbs, hcut'⟩ := h' rest hrest offset₁
  refine ⟨as ++ bs, offset₂, ⟨as, bs, rfl, has, hbs⟩, fun us hus => ?_⟩
  rw [String.toList_append, List.append_assoc, List.append_assoc]
  exact hcut _ (hcut' us hus)

/-- A character that is a token, whatever follows. -/
theorem Renders.symbol {c : Char} {symbol : String} (hsymbol : symbol.toList = [c])
    (hnext : ∀ rest, next c rest = .ok (kind, [c], rest)) (hkind : kind ≠ .blank)
    (h : Renders s P) : Renders (symbol ++ s) fun ts =>
      ∃ x us, ts = x :: us ∧ x.kind = kind ∧ P us := by
  intro rest hrest offset
  obtain ⟨ts, offset', hts, hcut⟩ := h rest hrest (offset + byteLength [c])
  refine ⟨_, offset', ⟨⟨kind, String.ofList [c], offset⟩, ts, rfl, rfl, hts⟩, fun us hus => ?_⟩
  rw [String.toList_append, hsymbol]
  exact .token (hnext _) hkind (hcut us hus)

theorem next_of_isSpace {c : Char} (h : isSpace c = true) (rest : List Char) :
    next c rest = .ok (.blank, c :: rest.takeWhile isSpace, rest.dropWhile isSpace) := by
  obtain ((rfl | rfl) | rfl) | rfl : ((c = ' ' ∨ c = '\t') ∨ c = '\n') ∨ c = '\r' := by
    simpa [isSpace] using h
  all_goals rfl

/-- White space in front of a text is dropped, together with more of it. -/
theorem cut_space {offset : Nat} {cs : List Char} {ts : List Token} (h : Cut (offset + 1) cs ts) :
    Cut offset (' ' :: cs) ts := by
  rw [cut_of_blank (next_of_isSpace rfl cs)]
  have hbytes (xs : List Char) :
      offset + byteLength (' ' :: xs) = offset + 1 + byteLength xs := by
    rw [Nat.add_assoc]
    rfl
  rw [hbytes]
  obtain _ | ⟨c, rest⟩ := cs
  · exact h
  · by_cases hc : isSpace c = true
    · rw [cut_of_blank (next_of_isSpace hc rest)] at h
      rwa [List.takeWhile_cons_of_pos hc, List.dropWhile_cons_of_pos hc]
    · rwa [List.takeWhile_cons_of_neg hc, List.dropWhile_cons_of_neg hc]

theorem Renders.space (h : Renders s P) : Renders (" " ++ s) P := by
  intro rest hrest offset
  obtain ⟨ts, offset', hts, hcut⟩ := h rest hrest (offset + 1)
  refine ⟨ts, offset', hts, fun us hus => ?_⟩
  rw [String.toList_append]
  exact cut_space (hcut us hus)

/-! ## Single tokens -/

/-- A text that is one token, if no token goes on behind it. -/
theorem renders_token (c : Char) (cs : List Char)
    (hnext : ∀ rest, Apart rest → next c (cs ++ rest) = .ok (kind, c :: cs, rest))
    (hkind : kind ≠ .blank) : Renders (String.ofList (c :: cs)) fun ts =>
      ∃ x : Token, ts = [x] ∧ x.kind = kind ∧ x.text.toList = c :: cs := by
  intro rest hrest offset
  refine ⟨[⟨kind, String.ofList (c :: cs), offset⟩], offset + byteLength (c :: cs),
    ⟨_, rfl, rfl, String.toList_ofList⟩, fun us hus => ?_⟩
  rw [String.toList_ofList]
  exact .token (hnext rest hrest) hkind hus

/-- A run of characters that can all be part of a name ends where no token goes on. -/
theorem span_append {p : Char → Bool} (hp : ∀ c, p c = true → isNamePart c = true)
    {cs rest : List Char} (hcs : ∀ c ∈ cs, p c = true) (hrest : Apart rest) :
    (cs ++ rest).takeWhile p = cs ∧ (cs ++ rest).dropWhile p = rest := by
  have hend : rest.takeWhile p = [] ∧ rest.dropWhile p = rest := by
    obtain _ | ⟨c, rest⟩ := rest
    · exact ⟨rfl, rfl⟩
    · have hc : ¬ p c = true := fun h => by simp [Apart, hp c h] at hrest
      exact ⟨List.takeWhile_cons_of_neg hc, List.dropWhile_cons_of_neg hc⟩
  rw [List.takeWhile_append_of_pos hcs, List.dropWhile_append_of_pos hcs, hend.1, hend.2,
    List.append_nil]
  exact ⟨rfl, rfl⟩

theorem isNamePart_of_isDigit {c : Char} (h : c.isDigit = true) : isNamePart c = true := by
  simp [isNamePart, Char.isAlphanum, h]

theorem next_of_isDigit {c : Char} (h : c.isDigit = true) (rest : List Char) : next c rest =
    .ok (.integer, c :: rest.takeWhile Char.isDigit, rest.dropWhile Char.isDigit) := by
  obtain ⟨d, hd, rfl⟩ := exists_digitChar h
  interval_cases d <;> rfl

theorem next_minus {c : Char} (h : c.isDigit = true) (rest : List Char) :
    next '-' (c :: rest) = .ok (.integer, '-' :: (c :: rest).takeWhile Char.isDigit,
      (c :: rest).dropWhile Char.isDigit) := by
  obtain ⟨d, hd, rfl⟩ := exists_digitChar h
  interval_cases d <;> rfl

theorem next_dollar {c : Char} (h : c.isDigit = true) (rest : List Char) :
    next '$' (c :: rest) = .ok (.param, '$' :: (c :: rest).takeWhile Char.isDigit,
      (c :: rest).dropWhile Char.isDigit) := by
  obtain ⟨d, hd, rfl⟩ := exists_digitChar h
  interval_cases d <;> rfl

theorem next_of_isNameStart {c : Char} (h : isNameStart c = true) (rest : List Char) :
    next c rest = .ok (wordKind (c :: rest.takeWhile isNamePart), c :: rest.takeWhile isNamePart,
      rest.dropWhile isNamePart) := by
  have hne {d : Char} (hd : isNameStart d = false) : (c == d) = false := by
    rw [beq_eq_false_iff_ne]
    rintro rfl
    rw [hd] at h
    cases h
  have hdigit : c.isDigit = false := by
    refine Bool.eq_false_iff.mpr fun hdigit => ?_
    obtain ⟨d, hd, rfl⟩ := exists_digitChar hdigit
    interval_cases d <;> cases h
  unfold next
  simp only [hne (d := '(') rfl, hne (d := ')') rfl, hne (d := ',') rfl, hne (d := '.') rfl,
    hne (d := ';') rfl, isSpace, hne (d := ' ') rfl, hne (d := '\t') rfl, hne (d := '\n') rfl,
    hne (d := '\r') rfl, Bool.or_self, hdigit, h, Bool.false_eq_true, if_false, if_true]

theorem renders_word {c : Char} {cs : List Char} (hc : isNameStart c = true)
    (hcs : ∀ d ∈ cs, isNamePart d = true) : Renders (String.ofList (c :: cs)) fun ts =>
      ∃ x : Token, ts = [x] ∧ x.kind = wordKind (c :: cs) ∧ x.text.toList = c :: cs := by
  refine renders_token _ _ (fun rest hrest => ?_) ?_
  · obtain ⟨htake, hdrop⟩ := span_append (fun _ h => h) hcs hrest
    rw [next_of_isNameStart hc, htake, hdrop]
  · unfold wordKind
    split_ifs <;> decide

section Digits

variable {digits : List Char} {n : Nat}

theorem renders_digits (h : Numeral digits n) : Renders (String.ofList digits) fun ts =>
    ∃ x : Token, ts = [x] ∧ x.kind = .integer ∧ x.text.toList = digits := by
  obtain _ | ⟨c, cs⟩ := digits
  · exact absurd rfl h.ne_nil
  have hcs : ∀ d ∈ cs, d.isDigit = true := fun d hd => h.isDigit d (List.mem_cons_of_mem _ hd)
  refine renders_token _ _ (fun rest hrest => ?_) (by decide)
  obtain ⟨htake, hdrop⟩ := span_append (fun _ => isNamePart_of_isDigit) hcs hrest
  rw [next_of_isDigit (h.isDigit c List.mem_cons_self), htake, hdrop]

theorem renders_negative (h : Numeral digits n) : Renders (String.ofList ('-' :: digits)) fun ts =>
    ∃ x : Token, ts = [x] ∧ x.kind = .integer ∧ x.text.toList = '-' :: digits := by
  refine renders_token _ _ (fun rest hrest => ?_) (by decide)
  obtain ⟨htake, hdrop⟩ := span_append (fun _ => isNamePart_of_isDigit) h.isDigit hrest
  obtain _ | ⟨c, cs⟩ := digits
  · exact absurd rfl h.ne_nil
  · rw [List.cons_append] at htake hdrop ⊢
    rw [next_minus (h.isDigit c List.mem_cons_self), htake, hdrop]

theorem renders_param (h : Numeral digits n) : Renders (String.ofList ('$' :: digits)) fun ts =>
    ∃ x : Token, ts = [x] ∧ x.kind = .param ∧ x.text.toList = '$' :: digits := by
  refine renders_token _ _ (fun rest hrest => ?_) (by decide)
  obtain ⟨htake, hdrop⟩ := span_append (fun _ => isNamePart_of_isDigit) h.isDigit hrest
  obtain _ | ⟨c, cs⟩ := digits
  · exact absurd rfl h.ne_nil
  · rw [List.cons_append] at htake hdrop ⊢
    rw [next_dollar (h.isDigit c List.mem_cons_self), htake, hdrop]

end Digits

theorem numeral_toDigits (n : Nat) : Numeral (Nat.toDigits 10 n) n := by
  induction n using Nat.strongRecOn with
  | ind n ih =>
    obtain hn | hn := Nat.lt_or_ge n 10
    · rw [Nat.toDigits_of_lt_base hn]
      exact .digit hn
    · rw [Nat.toDigits_of_base_le (by decide) hn]
      have hnumeral := (ih (n / 10) (by omega)).more (Nat.mod_lt n (by decide : 0 < 10))
      rwa [Nat.div_add_mod] at hnumeral

theorem stringBody_quotes {raw value : List Char} (h : Quotes raw value) (rest : List Char) :
    stringBody (raw ++ '"' :: rest) = (raw ++ ['"'], true, rest) := by
  induction h with
  | nil => rfl
  | plain hquote hescape _ ih =>
    rw [List.cons_append, stringBody.eq_5 _ _ hquote (fun _ _ h _ => hescape h)
      (fun h _ => hescape h), ih]
    rfl
  | escape hline _ ih =>
    rw [List.cons_append, List.cons_append, stringBody, if_neg (by simpa using hline), ih]
    rfl

theorem next_quote {text more rest : List Char} (h : stringBody rest = (text, true, more)) :
    next '"' rest = .ok (.string, '"' :: text, more) := by
  unfold next
  rw [h]
  rfl

theorem renders_quotes {raw value : List Char} (h : Quotes raw value) :
    Renders (String.ofList ('"' :: (raw ++ ['"']))) fun ts =>
      ∃ x : Token, ts = [x] ∧ x.kind = .string ∧ x.text.toList = '"' :: (raw ++ ['"']) := by
  refine renders_token _ _ (fun rest _ => ?_) (by decide)
  rw [List.append_assoc, List.singleton_append]
  exact next_quote (stringBody_quotes h rest)

end Token

end ClassSynth
