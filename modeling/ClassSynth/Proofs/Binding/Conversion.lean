import ClassSynth.Proofs.Binding.Typing

/-!
# Converted arguments

A method is chosen for arguments whose types can be converted to those of its parameters. The
arguments that it is called with are converted, so that each is well typed and of a type that its
parameter takes (`Binding.convertArguments_sound`).
-/

namespace ClassSynth

/-- The last parameter of a method that packs arguments is an array. -/
def MethodSig.PacksArray (m : MethodSig) : Prop :=
  m.isVarargs = true → ∃ t, m.params.getLast? = some t ∧ t.isArray = true

theorem TypeName.arrayOf_elementType {t : TypeName} (h : t.isArray = true) :
    t.elementType.arrayOf = t := by
  obtain ⟨element, helement⟩ := Option.isSome_iff_exists.mp h
  rw [elementType, helement, Option.getD_some]
  unfold element? at helement
  split at helement
  · next rest hrest =>
    obtain rfl := Option.some.inj helement
    have htext : t.text.toList = rest.reverse ++ ['[', ']'] := by
      rw [← List.reverse_reverse t.text.toList, hrest]
      simp
    obtain ⟨text⟩ := t
    refine congrArg TypeName.mk (String.toList_inj.mp ?_)
    rw [String.toList_append, String.toList_ofList, htext]
    rfl
  · cases helement

/-- A wrapper class is a reference type other than that of `null`, and it wraps a primitive type. -/
theorem TypeName.kinds_of_unboxed? {source target : TypeName} (h : source.unboxed? = some target) :
    source.isReference = true ∧ source.isNull = false ∧ target.isPrimitive = true := by
  obtain ⟨p, hp, rfl⟩ := Option.map_eq_some_iff.mp h
  obtain ⟨text⟩ := source
  obtain rfl : p.wrapper = text := by simpa using List.find?_some hp
  cases p <;> decide

/-- A typed expression is well typed, and its value has the type. -/
structure Typed.IsSound (p : ClassPool) (s : Scope) (v : Typed) : Prop where
  type : v.value.typeIn s = some v.type
  value : v.value.WellTyped p s

namespace Binding

variable {p : ClassPool} {s : Scope} {source target : TypeName}

/-! ## Conversions -/

/-- A value of the first type can be converted for a parameter of the second one. -/
inductive Converts (p : ClassPool) (source target : TypeName) : Prop
  | passes (h : p.Passes source target)
  | boxed {wrapper : TypeName} (hsource : source.boxed? = some wrapper)
      (h : p.Subtype wrapper target)
  | unboxed (h : source.unboxed? = some target)

theorem of_costIf {test : Bool} {cost : Nat} {P : Prop} (h : test = true → P) :
    (costIf test cost).isSome = true → P := by
  unfold costIf
  split_ifs with htest
  · exact fun _ => h htest
  · nofun

theorem within_conversionCost (source target : TypeName) :
    Within p.Loads (conversionCost source target) fun cost =>
      cost.isSome = true → Converts p source target := by
  unfold conversionCost
  refine .ite (fun h => .pure fun _ => .passes (.inl (beq_iff_eq.mp h))) fun _ => ?_
  refine .ite (fun _ => ?_) fun _ => .ite (fun _ => .pure ?_) fun _ => .ite (fun _ => ?_)
    fun _ => .pure ?_
  · exact (ClassPool.within_isSubtype source target).bind fun _ h =>
      .pure (of_costIf fun hyes => .passes (.inr (.inl (h hyes))))
  · refine of_costIf fun h => ?_
    rw [Bool.and_eq_true, beq_iff_eq] at h
    exact .passes (.inr (.inr h))
  · split
    · next wrapper hwrapper =>
      exact (ClassPool.within_isSubtype wrapper target).bind fun _ h =>
        .pure (of_costIf fun hyes => .boxed hwrapper (h hyes))
    · exact .pure fun h => by cases h
  · exact of_costIf fun h => .unboxed (beq_iff_eq.mp h)

theorem within_totalCost (pairs : List (TypeName × TypeName)) :
    Within p.Loads (totalCost pairs) fun cost =>
      cost.isSome = true → ∀ pair ∈ pairs, Converts p pair.1 pair.2 := by
  induction pairs with
  | nil => exact .pure fun _ _ h => absurd h List.not_mem_nil
  | cons pair rest ih =>
    refine (within_conversionCost pair.1 pair.2).bind fun cost hcost => ?_
    cases cost with
    | none => exact .pure nofun
    | some cost =>
      refine ih.bind fun more hmore => .pure fun h => ?_
      rw [Option.isSome_map] at h
      exact List.forall_mem_cons.mpr ⟨hcost rfl, hmore h⟩

theorem within_fixedCost (params args : List TypeName) :
    Within p.Loads (fixedCost params args) fun cost =>
      cost.isSome = true → List.Forall₂ (Converts p) args params := by
  refine .ite (fun hlength => ?_) fun _ => .pure nofun
  exact (within_totalCost (args.zip params)).mono fun _ h hcost =>
    List.forall₂_iff_zip.mpr ⟨hlength.symm, fun hpair => h hcost _ hpair⟩

/-- The arguments can be passed, those after the fixed ones in an array. -/
def Packs (p : ClassPool) (params args : List TypeName) : Prop :=
  ∃ fixed array, params = fixed ++ [array] ∧
    List.Forall₂ (Converts p) (args.take fixed.length) fixed ∧
    ∀ t ∈ args.drop fixed.length, Converts p t array.elementType

theorem within_packedCost (params args : List TypeName) :
    Within p.Loads (packedCost params args) fun cost => cost.isSome = true → Packs p params args := by
  unfold packedCost
  split
  · exact .pure fun h => by cases h
  · next array harray =>
    refine .ite (fun _ => .pure fun h => by cases h) fun _ => ?_
    refine (within_fixedCost _ _).bind fun cost hcost => ?_
    cases cost with
    | none => exact .pure fun h => by cases h
    | some cost =>
      refine (within_totalCost _).bind fun more hmore => .pure fun h => ?_
      rw [Option.isSome_map] at h
      refine ⟨_, array, (List.dropLast_append_getLast? array harray).symm, hcost rfl,
        fun t ht => ?_⟩
      exact hmore h (t, array.elementType) (List.mem_map_of_mem ht)

/-! ## Overloads -/

/-- The candidate can be called with arguments of the types. -/
structure Applicable.Fits (p : ClassPool) (candidates : List MethodSig) (args : List TypeName)
    (a : Applicable) : Prop where
  mem : a.method ∈ candidates
  fixed : a.isPacked = false → List.Forall₂ (Converts p) args a.method.params
  packed : a.isPacked = true → a.method.isVarargs = true ∧ Packs p a.method.params args

theorem within_applicable (args : List TypeName) (m : MethodSig) :
    Within p.Loads (applicable args m) fun found => ∀ a ∈ found, a.Fits p [m] args := by
  refine (within_fixedCost m.params args).bind fun cost hcost => ?_
  cases cost with
  | some cost =>
    refine .pure fun a ha => ?_
    obtain rfl := Option.some.inj ha
    exact ⟨List.mem_singleton_self m, fun _ => hcost rfl, nofun⟩
  | none =>
    refine .ite (fun hvarargs => ?_) fun _ => .pure nofun
    refine (within_packedCost m.params args).bind fun cost hcost => .pure fun a ha => ?_
    obtain ⟨cost, rfl, rfl⟩ := Option.map_eq_some_iff.mp (Option.mem_def.mp ha)
    exact ⟨List.mem_singleton_self m, nofun, fun _ => ⟨hvarargs, hcost rfl⟩⟩

theorem within_cheapest (args : List TypeName) (candidates : List MethodSig) :
    Within p.Loads (cheapest args candidates) fun found =>
      ∀ a ∈ found, a.Fits p candidates args := by
  refine Within.foldlM (R := fun done (best : Option Applicable) => ∀ a ∈ best, a.Fits p done args)
    (fun done best m _ hbest => ?_) [] nofun
  refine (within_applicable args m).bind fun found hfound => .pure fun a ha => ?_
  have hearlier : ∀ b ∈ best, b.Fits p (done ++ [m]) args := fun b hb =>
    { hbest b hb with mem := List.mem_append_left _ (hbest b hb).mem }
  have hlater : ∀ b ∈ found, b.Fits p (done ++ [m]) args := fun b hb =>
    { hfound b hb with mem := List.mem_append_right _ (hfound b hb).mem }
  unfold cheaper at ha
  split at ha
  · split_ifs at ha
    · exact hlater a ha
    · exact hearlier a ha
  · exact hlater a ha
  · exact hearlier a ha

/-! ## Values -/

theorem coerce_sound {arg : Typed} (harg : arg.IsSound p s) (h : Converts p arg.type target) :
    (coerce target arg).WellTyped p s ∧ (coerce target arg).PassesAs p s target := by
  unfold coerce
  cases h with
  | passes h =>
    obtain ⟨hboxed, hunboxed⟩ := h.kinds
    rw [hboxed, if_neg Bool.false_ne_true, Bool.and_right_comm, hunboxed, Bool.false_and,
      if_neg Bool.false_ne_true]
    exact ⟨harg.value, arg.type, harg.type, h⟩
  | boxed hsource h =>
    have hprimitive : arg.type.isPrimitive = true := by
      obtain ⟨q, hq, -⟩ := Option.map_eq_some_iff.mp hsource
      rw [TypeName.isPrimitive, hq]
      rfl
    have hwrapper := TypeName.isReference_of_boxed? hsource
    have htarget : target.isReference = true := by
      rcases h.kinds with rfl | ⟨-, htarget⟩
      · exact hwrapper
      · exact htarget
    rw [if_pos (by rw [hprimitive, htarget]; rfl)]
    exact ⟨⟨hprimitive, harg.type, harg.value⟩, _, hsource, .inr (.inl h)⟩
  | unboxed h =>
    obtain ⟨hsource, hnull, htarget⟩ := TypeName.kinds_of_unboxed? h
    rw [TypeName.isPrimitive_eq_false hsource, Bool.false_and, if_neg Bool.false_ne_true,
      if_pos (by rw [hsource, hnull, htarget]; rfl)]
    exact ⟨⟨htarget, ⟨_, harg.type, hsource⟩, harg.value⟩, target, rfl, .inl rfl⟩

/-- Arguments that are converted one by one; there may be more than are asked for. -/
theorem coerced_sound {params : List TypeName} {args : List Typed} (more : List Typed)
    (h : List.Forall₂ (fun (arg : Typed) t => Converts p arg.type t) args params)
    (hargs : ∀ v ∈ args, v.IsSound p s) :
    List.Forall₂ (Expr.PassesAs p s)
        ((params.zip (args ++ more)).map fun pair => coerce pair.1 pair.2) params ∧
      ∀ x ∈ (params.zip (args ++ more)).map fun pair => coerce pair.1 pair.2,
        x.WellTyped p s := by
  induction h with
  | nil => exact ⟨.nil, nofun⟩
  | cons hconverts _ ih =>
    obtain ⟨hfirst, hrest⟩ := List.forall_mem_cons.mp hargs
    obtain ⟨hpasses, htyped⟩ := ih hrest
    obtain ⟨hvalue, hpassed⟩ := coerce_sound hfirst hconverts
    exact ⟨.cons hpassed hpasses, List.forall_mem_cons.mpr ⟨hvalue, htyped⟩⟩

/-- The arguments of a call that converts them. -/
theorem convertArguments_sound {candidates : List MethodSig} {a : Applicable} {args : List Typed}
    (ha : a.Fits p candidates (args.map Typed.type)) (harray : a.method.PacksArray)
    (hargs : ∀ v ∈ args, v.IsSound p s) :
    List.Forall₂ (Expr.PassesAs p s) (convertArguments a args) a.method.params ∧
      ∀ x ∈ convertArguments a args, x.WellTyped p s := by
  unfold convertArguments
  cases hpacked : a.isPacked with
  | false =>
    have hall := coerced_sound [] (List.forall₂_map_left_iff.mp (ha.fixed hpacked)) hargs
    rw [List.append_nil] at hall
    exact hall
  | true =>
    obtain ⟨hvarargs, fixed, array, hparams, hfixed, hrest⟩ := ha.packed hpacked
    have hlast : a.method.params.getLast? = some array := by rw [hparams, List.getLast?_concat]
    have hisArray : array.isArray = true := by
      obtain ⟨t, ht, hisArray⟩ := harray hvarargs
      rwa [Option.some.inj (hlast.symm.trans ht)]
    dsimp only
    rw [if_pos rfl, hlast, hparams, List.dropLast_concat, Option.getD_some]
    rw [← List.map_take, List.forall₂_map_left_iff] at hfixed
    have hconverted := coerced_sound (args.drop fixed.length) hfixed
      fun v hv => hargs v (List.mem_of_mem_take hv)
    rw [List.take_append_drop] at hconverted
    have hitem : ∀ x ∈ (args.drop fixed.length).map (coerce array.elementType),
        x.WellTyped p s ∧ x.PassesAs p s array.elementType := by
      intro x hx
      obtain ⟨v, hv, rfl⟩ := List.mem_map.mp hx
      refine coerce_sound (hargs v (List.mem_of_mem_drop hv)) (hrest v.type ?_)
      rw [← List.map_drop]
      exact List.mem_map_of_mem hv
    have harrayTyped : (Expr.newArray array.elementType
        ((args.drop fixed.length).map (coerce array.elementType))).WellTyped p s :=
      ⟨fun x hx => (hitem x hx).2, Expr.allWellTyped_iff.mpr fun x hx => (hitem x hx).1⟩
    have harrayPasses : (Expr.newArray array.elementType
        ((args.drop fixed.length).map (coerce array.elementType))).PassesAs p s array :=
      ⟨array, congrArg some (TypeName.arrayOf_elementType hisArray), .inl rfl⟩
    refine ⟨List.rel_append hconverted.1 (.cons harrayPasses .nil), fun x hx => ?_⟩
    rcases List.mem_append.mp hx with hx | hx
    · exact hconverted.2 x hx
    · rw [List.mem_singleton.mp hx]
      exact harrayTyped

end Binding

end ClassSynth
