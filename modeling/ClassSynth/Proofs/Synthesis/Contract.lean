import ClassSynth.Proofs.Meaning.Objects

/-!
# Equal objects have equal hashes

If the synthesized `equals` of an object answers that another one equals it, then the values of all
compared members have equal hashes and the superclass finds the objects equal, if it is asked
(`equal_of_equalsBody`). What the synthesized `hashCode` returns depends on the hashes of members
and the inherited hash only (`result_hashCodeBody`). So the hashes are the same if whatever is
hashed is compared, with one exception: if no member is compared, then the inherited test is left
out, so the inherited hash must be left out too.
-/

namespace ClassSynth

open Synthesis

namespace World

variable {w : World} {act : Activation Datum} {env : List (String × Datum)} {x y : Expr}
  {xs : List Expr} {o o' : Nat} {t owner superclass : TypeName} {a b : Content} {m : Member}
  {members : List Member}

/-- What the accessor of a member returns. -/
def read (w : World) (owner : TypeName) (o : Nat) (m : Member) : Content :=
  w.get o { owner, name := m.accessor.name, params := [], ret := m.exposedType }

/-! ## Conditions -/

/-- The value of the expression is `true`. -/
def Holds (w : World) (act : Activation Datum) (env : List (String × Datum)) (x : Expr) : Prop :=
  x.value w.operations act env = some (.prim (.bool true))

theorem eq_true_of_truth? {v : Datum} (h : v.truth? = some true) : v = .prim (.bool true) := by
  unfold Datum.truth? at h
  split at h
  · rw [Option.some.inj h]
  · cases h

theorem holds_of_allHold (h : Expr.allHold w.operations act env xs = some true) :
    ∀ x ∈ xs, w.Holds act env x := by
  induction xs with
  | nil => simp
  | cons x rest ih =>
    simp only [Expr.allHold, Option.bind_eq_bind, Option.bind_eq_some_iff] at h
    obtain ⟨v, hv, c, hc, hrest⟩ := h
    split at hrest
    case isTrue htrue =>
      subst htrue
      rw [eq_true_of_truth? hc] at hv
      exact List.forall_mem_cons.2 ⟨hv, ih hrest⟩
    case isFalse => cases hrest

theorem same_of_holds_compare {u v : Datum} (h : w.Holds act env (.compare .eq x y))
    (hx : x.value w.operations act env = some u) (hy : y.value w.operations act env = some v) :
    u.same? v = some true := by
  simpa [Holds, Expr.value, hx, hy, Option.bind_eq_some_iff, CompareOp.holds] using h

/-! ## Values of members -/

theorem value_invokeVirtual {method : MethodRef} {v : Datum} {vs : List Datum}
    (hm : method.onInterface = false) (hx : x.value w.operations act env = some v)
    (hxs : Expr.values w.operations act env xs = some vs) :
    (Expr.invokeVirtual x method xs).value w.operations act env =
      w.call .virtual method (some v) vs := by
  simp [Expr.invokeVirtual, hm, Expr.value, Expr.receiverValue, hx, hxs]

theorem value_read (owner : TypeName) (m : Member)
    (hx : x.value w.operations act env = some (.ref (some o))) :
    (m.read owner x).value w.operations act env = some (w.read owner o m).datum := by
  rw [Member.read, value_invokeVirtual rfl hx rfl]
  rfl

theorem isOf_read (owner : TypeName) (o : Nat) (m : Member) :
    (w.read owner o m).isOf m.exposedType = true :=
  w.get_isOf o _

/-- The contents of variables of primitive types. -/
theorem exists_prim {p : Primitive} (hp : t.primitive? = some p) (ha : a.isOf t = true) :
    ∃ v, a = .prim v ∧ v.isOf p = true := by
  cases a with
  | prim v => exact ⟨v, rfl, by simpa [Content.isOf, hp] using ha⟩
  | ref object? => simp [Content.isOf, hp] at ha

/-- The contents of variables of other types. -/
theorem exists_ref (ht : t.primitive? = none) (ha : a.isOf t = true) : ∃ r, a = .ref r := by
  cases a with
  | prim v => simp [Content.isOf, ht] at ha
  | ref r => exact ⟨r, rfl⟩

/-- The operator `==` finds no different values equal, except for floating-point numbers. -/
theorem eq_of_same? {u v : PrimitiveValue} {p : Primitive} (hu : u.isOf p = true)
    (hfloat : p ≠ .float) (hdouble : p ≠ .double) (h : u.same? v = some true) : u = v := by
  cases u <;> cases v <;> cases p <;> simp_all [PrimitiveValue.isOf, PrimitiveValue.same?]

theorem value_invokeStatic {u v : Datum} {method : MethodRef}
    (hx : x.value w.operations act env = some u) (hy : y.value w.operations act env = some v) :
    (Expr.invokeStatic method [x, y]).value w.operations act env =
      w.call .static method none [u, v] := by
  simp [Expr.invokeStatic, Expr.value, Expr.values, hx, hy]

/-- A test of floating-point values holds if their comparison gives zero. -/
theorem eq_zero_of_floatsEqual {p : Primitive} {u v : Datum} {n : Int32}
    (hx : x.value w.operations act env = some u) (hy : y.value w.operations act env = some v)
    (hcall : ∀ params ret,
      w.call .static ⟨⟨p.wrapper⟩, "compare", params, ret, false⟩ none [u, v] =
        some (.prim (.int n)))
    (h : w.Holds act env (floatsEqual p x y)) : n = 0 := by
  have hcompare := same_of_holds_compare h ((value_invokeStatic hx hy).trans (hcall ..)) rfl
  simpa [Datum.same?, PrimitiveValue.same?] using hcompare

theorem hashOf_eq_of_referencesEqual (hw : w.KeepsContract) {nullSafe : Bool}
    {r s : Option Nat} (hx : x.value w.operations act env = some (.ref r))
    (hy : y.value w.operations act env = some (.ref s))
    (h : w.Holds act env (referencesEqual nullSafe x y)) :
    w.hashOf (.ref r) = w.hashOf (.ref s) := by
  have hash_eq (o : Nat) (h : w.equals o s = true) :
      w.hashOf (.ref (some o)) = w.hashOf (.ref s) := by
    cases s with
    | none => rw [hw.null] at h; cases h
    | some o' => exact hw.hash o o' h
  unfold referencesEqual at h
  split at h
  case isTrue =>
    rw [Holds, value_invokeStatic hx hy] at h
    have heq : r = s ∨ ∃ o, r = some o ∧ w.equals o s = true := by
      simpa [call, nullSafeEquals, Option.any_eq_true] using h
    obtain rfl | ⟨o, rfl, ho⟩ := heq
    · rfl
    · exact hash_eq o ho
  case isFalse =>
    have hargs : Expr.values w.operations act env [y] = some [.ref s] := by simp [Expr.values, hy]
    rw [Holds, value_invokeVirtual rfl hx hargs] at h
    cases r with
    | none => cases h
    | some o => exact hash_eq o (by simpa [call] using h)

/-- Values that the test finds equal have equal hashes. -/
theorem hashOf_eq_of_valuesEqual (hw : w.KeepsContract) {nullSafe : Bool}
    (hx : x.value w.operations act env = some a.datum)
    (hy : y.value w.operations act env = some b.datum) (ha : a.isOf t = true)
    (hb : b.isOf t = true) (h : w.Holds act env (valuesEqual nullSafe t x y)) :
    w.hashOf a = w.hashOf b := by
  unfold valuesEqual at h
  split at h
  case h_1 hp =>
    obtain ⟨u, rfl, hu⟩ := exists_prim hp ha
    obtain ⟨v, rfl, hv⟩ := exists_prim hp hb
    cases u <;> cases hu
    cases v <;> cases hv
    have hzero := eq_zero_of_floatsEqual hx hy (fun _ _ => rfl) h
    simp [hashOf, PrimitiveValue.hash, FloatFormat.canonical_of_compare _ hzero]
  case h_2 hp =>
    obtain ⟨u, rfl, hu⟩ := exists_prim hp ha
    obtain ⟨v, rfl, hv⟩ := exists_prim hp hb
    cases u <;> cases hu
    cases v <;> cases hv
    have hzero := eq_zero_of_floatsEqual hx hy (fun _ _ => rfl) h
    simp [hashOf, PrimitiveValue.hash, FloatFormat.canonical_of_compare _ hzero]
  case h_3 p hfloat hdouble hp =>
    obtain ⟨u, rfl, hu⟩ := exists_prim hp ha
    obtain ⟨v, rfl, -⟩ := exists_prim hp hb
    rw [eq_of_same? hu hfloat hdouble (same_of_holds_compare h hx hy)]
  case h_4 ht =>
    obtain ⟨r, rfl⟩ := exists_ref ht ha
    obtain ⟨s, rfl⟩ := exists_ref ht hb
    exact hashOf_eq_of_referencesEqual hw hx hy h

/-! ## `equals` -/

/-- What the statement gives, or else the rest of the body. -/
theorem resultOf_answerIf {cond : Expr} {answer : Bool} {rest : List Stmt} {v : Datum}
    (h : Meaning.resultOf w.operations act (answerIf cond answer :: rest) = some v) :
    w.Holds act [] cond ∧ v = .prim (.bool answer) ∨
      Meaning.resultOf w.operations act rest = some v := by
  simp only [Meaning.resultOf, Stmt.outcomeAll, answerIf, Stmt.outcome, Option.bind_eq_bind,
    Option.bind_eq_some_iff] at h
  obtain ⟨end', ⟨outcome, ⟨c, hc, b, hb, hbranch⟩, hrest⟩, hv⟩ := h
  cases b with
  | false =>
    cases hbranch
    exact .inr (by simpa [Meaning.resultOf, hrest] using hv)
  | true =>
    cases hbranch
    cases hrest
    rw [eq_true_of_truth? hb] at hc
    exact .inl ⟨hc, (Option.some.inj hv).symm⟩

/-- The other object has a name when the members are compared. -/
abbrev comparing (o' : Nat) : List (String × Datum) := [(otherName, .ref (some o'))]

theorem cast_eq {t : TypeName} {v : Datum} (h : w.cast t (.ref (some o)) = some v) :
    v = .ref (some o) := by
  simp only [World.cast] at h
  split_ifs at h
  exact (Option.some.inj h).symm

/-- The tests of the members and the inherited test hold if the method answers that they do. -/
theorem holds_tests {tests : List Expr} (hact : act.args = [.ref (some o')])
    (h : Meaning.resultOf w.operations act
      [.declareLocal otherName owner (.cast owner (.param 1)), .ret (some (.and tests))] =
        some (.prim (.bool true))) :
    ∀ x ∈ tests, w.Holds act (comparing o') x := by
  simp only [Meaning.resultOf, Stmt.outcomeAll, Stmt.outcome, Expr.value, hact, Option.bind_eq_bind,
    Option.bind_eq_some_iff] at h
  obtain ⟨end', ⟨outcome, ⟨v, ⟨other, hother, hcast⟩, houtcome⟩, hrest⟩, hend⟩ := h
  cases hother
  cases houtcome
  rw [cast_eq hcast] at hrest
  cases hhold : Expr.allHold w.operations act (comparing o') tests with
  | none => simp [hhold] at hrest
  | some b =>
    simp only [hhold, Option.bind_some] at hrest
    cases hrest
    cases hend
    exact holds_of_allHold hhold

/-- What `equals` found if it answers that the objects are equal. -/
theorem equal_of_equalsBody (hw : w.KeepsContract) {d : EqualsDirective}
    (h : w.result (equalsBody d owner superclass members) o [.ref (some o')] =
      some (.prim (.bool true))) :
    o' = o ∨ comparedMembers members = [] ∨
      (∀ m ∈ comparedMembers members,
        w.hashOf (w.read owner o m) = w.hashOf (w.read owner o' m)) ∧
      (d.callSuper = true → w.inheritedEquals o (some o') = true) := by
  unfold result equalsBody equalsPrelude at h
  obtain ⟨hsame, -⟩ | h := resultOf_answerIf h
  · left
    simpa [Datum.same?] using same_of_holds_compare hsame rfl rfl
  obtain ⟨-, hfalse⟩ | h := resultOf_answerIf h
  · cases hfalse
  obtain ⟨-, hfalse⟩ | h := resultOf_answerIf h
  · cases hfalse
  right
  split at h
  case isTrue hempty => exact .inl (List.isEmpty_iff.1 hempty)
  case isFalse =>
    right
    have htests := holds_tests rfl h
    constructor
    · intro m hm
      have htest := htests _ (List.mem_append_left _ (List.mem_map_of_mem hm))
      exact hashOf_eq_of_valuesEqual hw (value_read owner m rfl) (value_read owner m rfl)
        (isOf_read owner o m) (isOf_read owner o' m) htest
    · intro hsuper
      have htest := htests (.invokeSuper (equalsMethod superclass) [.param 1])
        (List.mem_append_right _ (by simp [hsuper]))
      simpa [Holds, Expr.invokeSuper, Expr.value, Expr.receiverValue, Expr.values, Meaning.known,
        call, equalsMethod] using htest

/-! ## `hashCode` -/

/-- The hash of an object: what `hashCode` returns. -/
def hashCode (w : World) (d : HashCodeDirective) (owner : TypeName) (members : List Member)
    (o : Nat) : Int32 :=
  let hashed := hashedMembers members
  let inherited := if d.callSuper then 1 * 59 + w.inheritedHash o else 1
  if hashed.isEmpty then inherited else inherited * 59 + w.hashAll (hashed.map (w.read owner o))

theorem hashAll_map_congr {f g : Member → Content}
    (h : ∀ m ∈ members, w.hashOf (f m) = w.hashOf (g m)) :
    w.hashAll (members.map f) = w.hashAll (members.map g) := by
  have hash_map (k : Member → Content) : w.hashAll (members.map k) =
      (members.map fun m => w.hashOf (k m)).foldl (fun result hash => 31 * result + hash) 1 := by
    rw [hashAll, List.foldl_map, List.foldl_map]
  rw [hash_map, hash_map, List.map_congr_left h]

/-- The hash depends on the hashes of hashed members and on the inherited one, if it is used. -/
theorem hashCode_congr {d : HashCodeDirective}
    (h : ∀ m ∈ hashedMembers members, w.hashOf (w.read owner o m) = w.hashOf (w.read owner o' m))
    (hsuper : d.callSuper = true → w.inheritedHash o = w.inheritedHash o') :
    w.hashCode d owner members o = w.hashCode d owner members o' := by
  have hinherited : (if d.callSuper then 1 * 59 + w.inheritedHash o else 1) =
      if d.callSuper then 1 * 59 + w.inheritedHash o' else 1 := by
    split_ifs with hcall
    · rw [hsuper hcall]
    · rfl
  simp only [hashCode, hinherited, hashAll_map_congr h]

theorem value_memberObject (w : World) (env : List (String × Datum)) (owner : TypeName) (m : Member)
    (hact : act.receiver? = some (.ref (some o))) :
    ∃ v, (memberObject owner m).value w.operations act env = some v ∧
      v.item? = some (w.read owner o m) := by
  have hthis : Expr.this.value w.operations act env = some (.ref (some o)) := by
    rw [Expr.value, hact]
    rfl
  have hread := value_read owner m hthis
  unfold memberObject
  cases hp : m.exposedType.primitive? with
  | none =>
    obtain ⟨r, hr⟩ := exists_ref hp (isOf_read owner o m)
    refine ⟨_, by simpa [TypeName.isPrimitive, hp] using hread, ?_⟩
    rw [hr]
    rfl
  | some p =>
    obtain ⟨v, hv, -⟩ := exists_prim hp (isOf_read owner o m)
    refine ⟨.box v, ?_, by rw [hv]; rfl⟩
    simp [TypeName.isPrimitive, hp, Expr.value, hread, hv, Content.datum, Datum.wrapped?]

theorem value_membersHash (hact : act.receiver? = some (.ref (some o))) :
    (membersHash owner members).value w.operations act env =
      some (.prim (.int (w.hashAll (members.map (w.read owner o))))) := by
  have hitems : ∃ vs,
      Expr.values w.operations act env (members.map (memberObject owner)) = some vs ∧
        vs.mapM Datum.item? = some (members.map (w.read owner o)) := by
    induction members with
    | nil => exact ⟨[], rfl, rfl⟩
    | cons m rest ih =>
      obtain ⟨v, hv, hitem⟩ := value_memberObject w env owner m hact
      obtain ⟨vs, hvs, hitems⟩ := ih
      exact ⟨v :: vs, by simp [Expr.values, hv, hvs], by simp [hitem, hitems]⟩
  obtain ⟨vs, hvs, hitems⟩ := hitems
  simp [membersHash, Expr.invokeStatic, Expr.value, Expr.values, hvs, hitems, call]

theorem value_inheritedHash (hact : act.receiver? = some (.ref (some o))) :
    (Synthesis.inheritedHash superclass).value w.operations act env =
      some (.prim (.int (w.inheritedHash o))) := by
  simp [Synthesis.inheritedHash, Expr.invokeSuper, Expr.value, Expr.receiverValue, Expr.values,
    hact, Meaning.known, call]

/-- The number so far, in a method that computes a hash. -/
abbrev hashing (n : Int32) : List (String × Datum) := [(resultName, .prim (.int n))]

theorem outcomeAll_takeIn {n k : Int32} {rest : List Stmt}
    (hx : x.value w.operations act (hashing n) = some (.prim (.int k))) :
    Stmt.outcomeAll w.operations act (hashing n) (takeIn x :: rest) =
      Stmt.outcomeAll w.operations act (hashing (n * 59 + k)) rest := by
  simp [Stmt.outcomeAll, takeIn, Stmt.outcome, Expr.value, resultVar, hx, Meaning.known,
    Datum.arith?, ArithOp.apply, Meaning.assign]

theorem outcomeAll_hashCodeBody (d : HashCodeDirective) (owner superclass : TypeName)
    (members : List Member) (hact : act.receiver? = some (.ref (some o))) :
    Stmt.outcomeAll w.operations act [] (hashCodeBody d owner superclass members) =
      some (.returned (some (.prim (.int (w.hashCode d owner members o))))) := by
  have inherited (rest : List Stmt) :
      Stmt.outcomeAll w.operations act (hashing 1)
          ((if d.callSuper then [takeIn (Synthesis.inheritedHash superclass)] else []) ++ rest) =
        Stmt.outcomeAll w.operations act
          (hashing (if d.callSuper then 1 * 59 + w.inheritedHash o else 1)) rest := by
    split_ifs
    · exact outcomeAll_takeIn (value_inheritedHash hact)
    · rfl
  have taken (n : Int32) (rest : List Stmt) :
      Stmt.outcomeAll w.operations act (hashing n)
          ((if (hashedMembers members).isEmpty then []
            else [takeIn (membersHash owner (hashedMembers members))]) ++ rest) =
        Stmt.outcomeAll w.operations act
          (hashing (if (hashedMembers members).isEmpty then n
            else n * 59 + w.hashAll ((hashedMembers members).map (w.read owner o)))) rest := by
    split_ifs
    · rfl
    · exact outcomeAll_takeIn (value_membersHash hact)
  have declared (rest : List Stmt) :
      Stmt.outcomeAll w.operations act [] (.declareLocal resultName .int (.int 1) :: rest) =
        Stmt.outcomeAll w.operations act (hashing 1) rest := rfl
  rw [hashCodeBody, List.append_assoc, List.append_assoc, List.singleton_append, declared,
    inherited, taken]
  rfl

theorem result_hashCodeBody (w : World) (d : HashCodeDirective) (owner superclass : TypeName)
    (members : List Member) (o : Nat) :
    w.result (hashCodeBody d owner superclass members) o [] =
      some (.prim (.int (w.hashCode d owner members o))) := by
  simp [result, Meaning.resultOf, outcomeAll_hashCodeBody]

/-! ## The contract -/

/-- Objects that the synthesized `equals` finds equal have equal synthesized hashes. -/
theorem equal_hashes_of_equals (hw : w.KeepsContract)
    (hinherited : ∀ a b, w.inheritedEquals a (some b) = true →
      w.inheritedHash a = w.inheritedHash b)
    (d : EqualsDirective) (h : HashCodeDirective) (owner superclass : TypeName)
    (members : List Member) (hmembers : ∀ m ∈ hashedMembers members, m ∈ comparedMembers members)
    (hsuper : h.callSuper = true → d.callSuper = true)
    (hnone : comparedMembers members = [] → h.callSuper = false) (o o' : Nat)
    (hequals : w.result (equalsBody d owner superclass members) o [.ref (some o')] =
      some (.prim (.bool true))) :
    ∃ n, w.result (hashCodeBody h owner superclass members) o [] = some (.prim (.int n)) ∧
      w.result (hashCodeBody h owner superclass members) o' [] = some (.prim (.int n)) := by
  refine ⟨w.hashCode h owner members o, result_hashCodeBody .., ?_⟩
  rw [result_hashCodeBody]
  have heq : w.hashCode h owner members o = w.hashCode h owner members o' := by
    obtain rfl | hempty | ⟨hvalues, hsupers⟩ := equal_of_equalsBody hw hequals
    · rfl
    · have hhashed : hashedMembers members = [] :=
        List.eq_nil_iff_forall_not_mem.2 fun m hm => by simpa [hempty] using hmembers m hm
      exact hashCode_congr (by simp [hhashed]) (by simp [hnone hempty])
    · exact hashCode_congr (fun m hm => hvalues m (hmembers m hm)) fun hcall =>
        hinherited o o' (hsupers (hsuper hcall))
  rw [heq]

/-- Objects that equal only themselves. All their numbers are zero, those of the type `double` are
not numbers, each in a way of its own, and all references lead to one object. -/
def distinct : World where
  isInstance _ _ := true
  get o m := match m.ret.primitive? with
    | none => .ref (some 0)
    | some .boolean => .prim (.bool false)
    | some .byte | some .char | some .short | some .int => .prim (.int 0)
    | some .long => .prim (.long 0)
    | some .float => .prim (.float 0)
    | some .double => .prim (.double (0x7ff8000000000000 + .ofNat o))
  get_isOf o m := by
    cases h : m.ret.primitive? with
    | none => simp [Content.isOf, h]
    | some p => cases p <;> simp [Content.isOf, h, PrimitiveValue.isOf]
  equals a b := b == some a
  hash a := .ofNat a
  inheritedEquals a b := b == some a
  inheritedHash a := .ofNat a

theorem keepsContract_distinct : distinct.KeepsContract where
  hash a b h := by simp_all [distinct]
  null a := rfl

theorem inherited_distinct (a b : Nat) (h : distinct.inheritedEquals a (some b) = true) :
    distinct.inheritedHash a = distinct.inheritedHash b := by
  simp_all [distinct]

/-- A number that is not hashed and a value of the type `double`. -/
def weighed : List Member :=
  [⟨"id", ⟨"int"⟩,
      { name := "getId", returnType := ⟨"int"⟩, directives := { hashCodeExclude := true } }⟩,
    ⟨"weight", ⟨"double"⟩, { name := "getWeight", returnType := ⟨"double"⟩ }⟩]

theorem equal_hashes_of_equals_weighed :
    ∃ n, distinct.result (hashCodeBody {} ⟨"demo.Box"⟩ .object weighed) 1 [] =
        some (.prim (.int n)) ∧
      distinct.result (hashCodeBody {} ⟨"demo.Box"⟩ .object weighed) 2 [] =
        some (.prim (.int n)) :=
  equal_hashes_of_equals keepsContract_distinct inherited_distinct {} {} ⟨"demo.Box"⟩ .object
    weighed (by decide) (by decide) (by decide) 1 2 (by decide +kernel)

/-- If no member is compared, then the inherited `equals` is not asked, but the inherited hash is
taken in: two objects that the superclass tells apart are equal and have different hashes. -/
theorem inherited_hash_without_inherited_test :
    ¬ ∀ w : World, w.KeepsContract →
      (∀ a b, w.inheritedEquals a (some b) = true → w.inheritedHash a = w.inheritedHash b) →
      ∀ (d : EqualsDirective) (h : HashCodeDirective) (owner superclass : TypeName)
        (members : List Member), (∀ m ∈ hashedMembers members, m ∈ comparedMembers members) →
        (h.callSuper = true → d.callSuper = true) →
        ∀ o o' : Nat, w.result (equalsBody d owner superclass members) o [.ref (some o')] =
            some (.prim (.bool true)) →
          ∃ n, w.result (hashCodeBody h owner superclass members) o [] = some (.prim (.int n)) ∧
            w.result (hashCodeBody h owner superclass members) o' [] =
              some (.prim (.int n)) := by
  intro hcontract
  obtain ⟨n, hfirst, hsecond⟩ := hcontract distinct keepsContract_distinct inherited_distinct
    { callSuper := true } { callSuper := true } ⟨"demo.Box"⟩ ⟨"demo.Base"⟩ [] (by decide)
    (by decide) 1 2 (by decide +kernel)
  rw [result_hashCodeBody] at hfirst hsecond
  have heq := hfirst.trans hsecond.symm
  revert heq
  decide +kernel

end World

end ClassSynth
