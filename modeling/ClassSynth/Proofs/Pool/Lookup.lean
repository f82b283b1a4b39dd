import ClassSynth.Pool.Basic
import ClassSynth.Proofs.ClassFile.Codec
import ClassSynth.Proofs.Kept
import Std.Data.ExtHashMap.Lemmas

/-!
# Lookups in pools

What a pool answers for a name is a function of the pool, `ClassPool.lookup`, and a lookup changes
no answer: the pool keeps a class that a layer gave, and a layer that was asked answers as before.
So a pool that has loaded more classes is as good as the one before (`ClassPool.Loads`).
-/

namespace ClassSynth

/-! ## Layers -/

namespace Layer

variable (l : Layer) (asked : String)

theorem find_visit (name : String) : (l.visit asked).find name = l.find name := by
  cases l with
  | sources s =>
    change (s.visit asked).find name = s.find name
    unfold SourceDirectories.visit
    split_ifs <;> rfl
  | _ => rfl

theorem describe_visit : (l.visit asked).describe = l.describe := by
  cases l with
  | sources s =>
    change "sources:" ++ ",".intercalate (s.visit asked).roots = _
    unfold SourceDirectories.visit
    split_ifs <;> rfl
  | _ => rfl

theorem providesStubs_visit : (l.visit asked).providesStubs = l.providesStubs := by
  cases l <;> rfl

end Layer

namespace ClassPool

/-! ## Kept classes -/

section Kept

variable {p : ClassPool} {name other : String} {unit : ClassUnit}

theorem cached?_of_empty (h : p.cache = ∅) : p.cached? name = none := by
  rw [cached?, h, Std.ExtHashMap.getElem?_empty]

theorem cached?_keep_self : (p.keep name unit).cached? name = some unit :=
  Std.ExtHashMap.getElem?_insert_self

theorem cached?_keep_of_ne (h : name ≠ other) :
    (p.keep other unit).cached? name = p.cached? name := by
  rw [cached?, keep, Std.ExtHashMap.getElem?_insert, if_neg (by simpa using h.symm), cached?]

theorem cached?_forget_self : (p.forget name).cached? name = none :=
  Std.ExtHashMap.getElem?_erase_self

theorem cached?_forget_of_ne (h : name ≠ other) :
    (p.forget other).cached? name = p.cached? name := by
  rw [cached?, forget, Std.ExtHashMap.getElem?_erase, if_neg (by simpa using h.symm), cached?]

end Kept

/-! ## Searches -/

theorem findIn_visit (l : Layer) (asked name : String) :
    findIn (l.visit asked) name = findIn l name := by
  simp only [findIn, ofLayer, l.find_visit, l.describe_visit, l.providesStubs_visit]

theorem search_visitLayers (asked name : String) (layers : List Layer) :
    search name (visitLayers asked layers) = search name layers := by
  induction layers with
  | nil => rfl
  | cons l rest ih =>
    unfold visitLayers
    split
    · simp only [search, findIn_visit, ih]
    · simp only [search, findIn_visit]

/-! ## Answers -/

/-- The answer for a name: the class that is kept, or the one that the layers have. -/
def lookup (p : ClassPool) (name : String) : Except Error (Option ClassUnit) :=
  match p.cached? name with
  | some unit => .ok (some unit)
  | none => search name p.layers

theorem lookup_of_cached {p : ClassPool} {name : String} {unit : ClassUnit}
    (h : p.cached? name = some unit) : p.lookup name = .ok (some unit) := by
  rw [lookup, h]

/-- A class that no lookup has loaded yet. -/
theorem lookup_of_search {p : ClassPool} {name : String} {unit : ClassUnit}
    (hcached : p.cached? name = none)
    (h : (search name p.layers).toOption.join = some unit) : p.lookup name = .ok (some unit) := by
  rw [lookup, hcached]
  cases hfound : search name p.layers with
  | error e =>
    rw [hfound] at h
    cases h
  | ok found =>
    rw [hfound] at h
    exact congrArg Except.ok h

/-- The later pool has loaded classes, and answers as the earlier one does. -/
structure Loads (p p' : ClassPool) : Prop where
  lookup : ∀ name, p'.lookup name = p.lookup name
  cached : ∀ (name : String) (unit : ClassUnit),
    p.cached? name = some unit → p'.cached? name = some unit
  major : p'.major = p.major
  validate : p'.validate = p.validate

instance : IsPreorder ClassPool Loads where
  refl _ := ⟨fun _ => rfl, fun _ _ => id, rfl, rfl⟩
  trans _ _ _ hab hbc :=
    ⟨fun name => (hbc.lookup name).trans (hab.lookup name),
      fun name unit h => hbc.cached name unit (hab.cached name unit h),
      hbc.major.trans hab.major, hbc.validate.trans hab.validate⟩

theorem loads_visitLayers (p : ClassPool) (asked : String) :
    p.Loads { p with layers := visitLayers asked p.layers } :=
  ⟨fun name => by simp only [lookup, cached?, search_visitLayers], fun _ _ => id, rfl, rfl⟩

/-- Keeping the class that is the answer anyway. -/
theorem loads_keep {p : ClassPool} {asked : String} {unit : ClassUnit}
    (h : p.lookup asked = .ok (some unit)) : p.Loads (p.keep asked unit) := by
  refine ⟨fun name => ?_, fun name kept hkept => ?_, rfl, rfl⟩
  · by_cases hname : name = asked
    · subst hname
      rw [h, lookup_of_cached cached?_keep_self]
    · rw [lookup, cached?_keep_of_ne hname]
      rfl
  · by_cases hname : name = asked
    · subst hname
      have hsame := (lookup_of_cached hkept).symm.trans h
      rw [cached?_keep_self]
      exact (Except.ok.inj hsame).symm
    · rwa [cached?_keep_of_ne hname]

/-- **A lookup gives the answer of the pool, keeps the class and changes no answer.** -/
theorem run_find (p : ClassPool) (name : String) :
    ∃ p', (find name).run.run p = (p.lookup name, p') ∧ p.Loads p' ∧
      ∀ unit, p.lookup name = .ok (some unit) → p'.cached? name = some unit := by
  unfold find
  rw [run_get_bind]
  cases hcached : p.cached? name with
  | some unit =>
    rw [lookup_of_cached hcached]
    refine ⟨p, rfl, refl_of Loads p, fun answer hanswer => ?_⟩
    rw [hcached, Except.ok.inj hanswer]
  | none =>
    have hvisit := loads_visitLayers p name
    have hlookup : p.lookup name = search name p.layers := by rw [lookup, hcached]
    rw [hlookup]
    cases hsearch : search name p.layers with
    | error e => exact ⟨_, rfl, hvisit, fun _ hanswer => nomatch hanswer⟩
    | ok found =>
      cases found with
      | none => exact ⟨_, rfl, hvisit, fun _ hanswer => nomatch hanswer⟩
      | some unit =>
        have hunit : ({ p with layers := visitLayers name p.layers } : ClassPool).lookup name =
            .ok (some unit) := by rw [hvisit.lookup, hlookup, hsearch]
        refine ⟨_, rfl, trans_of Loads hvisit (loads_keep hunit), fun answer hanswer => ?_⟩
        rw [← Except.ok.inj hanswer]
        exact cached?_keep_self

theorem keeps_find (name : String) : Keeps Loads (find name) := by
  intro p
  obtain ⟨p', hrun, hloads, -⟩ := run_find p name
  exact hrun ▸ hloads

theorem keeps_getUnit (name : String) : Keeps Loads (getUnit name) := by
  refine (keeps_find name).bind fun found => ?_
  cases found with
  | some unit => exact .pure
  | none => exact .throw

/-! ## Names -/

/-- A class that the layers have is named by its file, and has the name that it was asked for. -/
theorem names_of_search {name : String} {unit : ClassUnit} {layers : List Layer}
    (h : search name layers = .ok (some unit)) :
    unit.name = ⟨name⟩ ∧ unit.file.thisName.map TypeName.ofInternal = .ok ⟨name⟩ := by
  induction layers with
  | nil => cases h
  | cons l rest ih =>
    obtain ⟨found, hfound, h⟩ := Checked.bind_eq_ok.mp h
    cases found with
    | none => exact ih h
    | some answer =>
      obtain rfl := Option.some.inj (Except.ok.inj h)
      obtain ⟨bytes, -, hfound⟩ := Checked.bind_eq_ok.mp hfound
      cases bytes with
      | none => cases hfound
      | some bytes =>
        obtain ⟨unit, hlayer, hfound⟩ := Checked.bind_eq_ok.mp hfound
        obtain rfl := Option.some.inj (Except.ok.inj hfound)
        obtain ⟨raw, hraw, hlayer⟩ := Checked.bind_eq_ok.mp hlayer
        obtain ⟨file, -, hfile⟩ := Checked.bind_eq_ok.mp hraw
        split_ifs at hlayer with hname
        · obtain rfl := Except.ok.inj hlayer
          have hname : raw.name = ⟨name⟩ := congrArg TypeName.mk (beq_iff_eq.mp hname)
          exact ⟨hname, hname ▸ (ClassUnit.named_of_ofFile hfile).name⟩

/-- Every class that the pool answers with is named by its file. -/
def NamesFiles (p : ClassPool) : Prop :=
  ∀ name unit, p.lookup name = .ok (some unit) →
    unit.file.thisName.map TypeName.ofInternal = .ok ⟨name⟩

theorem namesFiles_of_empty {p : ClassPool} (h : p.cache = ∅) : p.NamesFiles := by
  intro name unit hlookup
  rw [lookup, cached?_of_empty h] at hlookup
  exact (names_of_search hlookup).2

end ClassPool

end ClassSynth

namespace ClassSynth.ClassPool

/-! ## Changes of pools

Changes keep a class under its own name, so a pool answers with classes of the name that it is asked
for (`ClassPool.NamesUnits`), before and after every change.
-/

variable {α : Type} {p p' : ClassPool} {name : String} {unit : ClassUnit}

/-- Every class that the pool answers with has the name that it is asked for. -/
def NamesUnits (p : ClassPool) : Prop :=
  ∀ name unit, p.lookup name = .ok (some unit) → unit.name = ⟨name⟩

theorem Loads.namesUnits (h : p.Loads p') (hp : p.NamesUnits) : p'.NamesUnits :=
  fun name unit hlookup => hp name unit (h.lookup name ▸ hlookup)

/-- The pool with a class in the place of the one of its name. -/
def withUnit (p : ClassPool) (unit : ClassUnit) : ClassPool :=
  p.keep unit.name.text unit

theorem cached_withUnit_self : (p.withUnit unit).cached? unit.name.text = some unit :=
  cached?_keep_self

theorem cached_withUnit_of_ne (h : name ≠ unit.name.text) :
    (p.withUnit unit).cached? name = p.cached? name :=
  cached?_keep_of_ne h

theorem lookup_withUnit_self : (p.withUnit unit).lookup unit.name.text = .ok (some unit) :=
  lookup_of_cached cached_withUnit_self

theorem lookup_withUnit_of_ne (h : name ≠ unit.name.text) :
    (p.withUnit unit).lookup name = p.lookup name := by
  rw [lookup, cached_withUnit_of_ne h]
  rfl

theorem NamesUnits.withUnit (hp : p.NamesUnits) (unit : ClassUnit) :
    (p.withUnit unit).NamesUnits := by
  intro name found hlookup
  by_cases hname : name = unit.name.text
  · subst hname
    rw [lookup_withUnit_self] at hlookup
    obtain rfl := Option.some.inj (Except.ok.inj hlookup)
    rfl
  · refine hp name found ?_
    rwa [lookup_withUnit_of_ne hname] at hlookup

/-- After a class was taken out, the layers answer for it. -/
theorem NamesUnits.forget (hp : p.NamesUnits) (name : String) :
    (p.forget name).NamesUnits := by
  intro asked found hlookup
  by_cases hasked : asked = name
  · subst hasked
    rw [lookup, cached?_forget_self] at hlookup
    exact (names_of_search hlookup).1
  · refine hp asked found ?_
    rwa [lookup, cached?_forget_of_ne hasked] at hlookup

theorem namesUnits_of_empty (h : p.cache = ∅) : p.NamesUnits := by
  intro name unit hlookup
  rw [lookup, cached?_of_empty h] at hlookup
  exact (names_of_search hlookup).1

/-! ### Runs -/

/-- A class that the pool has is kept from then on. -/
theorem run_getUnit_of_lookup (h : p.lookup name = .ok (some unit)) :
    ∃ p', (getUnit name).run.run p = (.ok unit, p') ∧ p'.cached? name = some unit := by
  obtain ⟨p', hrun, -, hkept⟩ := run_find p name
  rw [h] at hrun
  exact ⟨p', run_bind_of_ok hrun, hkept unit h⟩

theorem run_getUnit_of_cached (h : p.cached? name = some unit) :
    (getUnit name).run.run p = (.ok unit, p) := by
  have hfind : (find name).run.run p = (.ok (some unit), p) := by
    unfold find
    rw [run_get_bind, h]
    rfl
  exact run_bind_of_ok hfind

/-- A class that was looked up is kept, and one that is not found is not there. -/
theorem of_run_find {found : Option ClassUnit} (h : (find name).run.run p = (.ok found, p')) :
    p.Loads p' ∧ p.lookup name = .ok found ∧ p'.cached? name = found := by
  obtain ⟨p₁, hrun, hloads, hkept⟩ := run_find p name
  obtain ⟨hfound, rfl⟩ := Prod.mk.inj (hrun.symm.trans h)
  refine ⟨hloads, hfound, ?_⟩
  cases found with
  | some unit => exact hkept unit hfound
  | none =>
    cases hcached : p₁.cached? name with
    | none => rfl
    | some unit =>
      have hlookup := (lookup_of_cached hcached).symm.trans (hloads.lookup name)
      rw [hfound] at hlookup
      cases hlookup

theorem of_run_getUnit (h : (getUnit name).run.run p = (.ok unit, p')) :
    p.Loads p' ∧ p.lookup name = .ok (some unit) ∧ p'.cached? name = some unit := by
  obtain ⟨found, p₁, hfind, h⟩ := of_run_bind_ok h
  cases found with
  | none => exact absurd h not_run_throw_ok
  | some kept =>
    obtain ⟨hkept, rfl⟩ := Prod.mk.inj h
    obtain rfl := Except.ok.inj hkept
    exact of_run_find hfind

/-- A class that is there is loaded; otherwise a new class is kept where none was. -/
theorem of_run_getOrCreate {t : TypeName} (hp : p.NamesUnits)
    (h : (getOrCreate t).run.run p = (.ok unit, p')) :
    unit.name = t ∧ p'.cached? t.text = some unit ∧
      (p.Loads p' ∨ ∃ p₁, p.Loads p₁ ∧ p₁.cached? t.text = none ∧ p' = p₁.withUnit unit) := by
  obtain ⟨found, p₁, hfind, h⟩ := of_run_bind_ok h
  obtain ⟨hloads, hlookup, hcached⟩ := of_run_find hfind
  cases found with
  | some kept =>
    obtain ⟨hkept, rfl⟩ := Prod.mk.inj h
    obtain rfl := Except.ok.inj hkept
    exact ⟨hp _ _ hlookup, hcached, .inl hloads⟩
  | none =>
    obtain ⟨start, p₂, hget, h⟩ := of_run_bind_ok h
    obtain ⟨rfl, rfl⟩ := of_run_get_ok hget
    obtain ⟨_, p₂, hput, h⟩ := of_run_bind_ok h
    obtain rfl := of_run_modify_ok hput
    obtain ⟨hunit, rfl⟩ := Prod.mk.inj h
    obtain rfl := Except.ok.inj hunit
    exact ⟨rfl, cached?_keep_self, .inr ⟨_, hloads, hcached, rfl⟩⟩

/-- An edit of a kept class puts the edited class in its place. -/
theorem run_edit {step : ClassUnit.Edit α} {result : Except Error α} {edited : ClassUnit}
    (h : p.cached? unit.name.text = some unit) (hstep : unit.runEdit step = (result, edited))
    (hname : edited.name = unit.name) :
    (edit unit.name.text step).run.run p = (result, p.withUnit edited) := by
  refine (run_bind_of_ok (run_getUnit_of_cached h)).trans ?_
  rw [hstep, ← hname]
  have hput : (put edited.name.text edited).run.run p = (.ok (), p.withUnit edited) := rfl
  exact (run_bind_of_ok hput).trans (run_lift _)

theorem of_run_take (h : (take name).run.run p = (.ok unit, p')) :
    ∃ p₁, p.Loads p₁ ∧ p.lookup name = .ok (some unit) ∧
      p' = p₁.forget name := by
  obtain ⟨kept, p₁, hget, h⟩ := of_run_bind_ok h
  obtain ⟨_, p₂, herase, h⟩ := of_run_bind_ok h
  obtain rfl := of_run_modify_ok herase
  obtain ⟨hkept, rfl⟩ := Prod.mk.inj h
  obtain rfl := Except.ok.inj hkept
  obtain ⟨hloads, hlookup, -⟩ := of_run_getUnit hget
  exact ⟨p₁, hloads, hlookup, rfl⟩

end ClassSynth.ClassPool
