import ClassSynth.Proofs.Pool.Transparency
import Mathlib.Data.List.Induction

/-!
# Overloads

Of several methods of a name the one is called that takes the arguments at the least cost, of those
that cost the same the first (`Scope.run_select`). That packing is to be the last resort is a number
in this sum: `packingCost`. It is above the cost of all conversions of fewer than half as many
arguments, but with more of them a packing may cost less than boxing each argument.

Main result: `Scope.select_packs_last`. Where each packing is beaten by a method that takes the
arguments as they are (`Binding.PackingYields`), arguments are packed only if there is no such
method, and otherwise the first of the cheapest of them is called. Anywhere else a packing wins
(`Scope.select_packs_early`).
-/

namespace ClassSynth.Binding

open ClassPool (Step Agrees Loads closed_loads closed_blind)

variable {p q : ClassPool} {types : List TypeName} {m : MethodSig} {candidates : List MethodSig}

/-! ## Bounds of costs -/

theorem le_of_costIf {test : Bool} {cost k : Nat} (h : k ∈ costIf test cost) : k ≤ cost := by
  unfold costIf at h
  split_ifs at h
  · exact (Option.some.inj h).ge
  · cases h

theorem ensures_conversionCost (source target : TypeName) :
    Ensures (conversionCost source target) fun found => ∀ k ∈ found, k ≤ 2 := by
  have hsubtype (cost : Nat) (hcost : cost ≤ 2) (sub sup : TypeName) :
      Ensures (do return costIf (← ClassPool.isSubtype sub sup) cost) fun found =>
        ∀ k ∈ found, k ≤ 2 :=
    Ensures.trivial.bind fun _ _ => .pure fun k hk => (le_of_costIf hk).trans hcost
  refine .ite (fun _ => .pure fun k hk => (Option.some.inj hk).ge.trans (Nat.zero_le 2)) fun _ =>
    .ite (fun _ => hsubtype 1 (by decide) _ _) fun _ =>
    .ite (fun _ => .pure fun k hk => (le_of_costIf hk).trans (by decide)) fun _ =>
    .ite (fun _ => ?_) fun _ => .pure fun k hk => le_of_costIf hk
  split
  · exact hsubtype 2 (by decide) _ _
  · exact .pure fun k hk => absurd hk (Option.not_mem_none k)

theorem ensures_totalCost (pairs : List (TypeName × TypeName)) :
    Ensures (totalCost pairs) fun found => ∀ k ∈ found, k ≤ 2 * pairs.length := by
  induction pairs with
  | nil => exact .pure fun k hk => (Option.some.inj hk).ge
  | cons pair rest ih =>
    refine (ensures_conversionCost _ _).bind fun found hfound => ?_
    cases found with
    | none => exact .pure fun k hk => absurd hk (Option.not_mem_none k)
    | some cost =>
      refine ih.bind fun more hmore => .pure fun k hk => ?_
      obtain ⟨j, hj, rfl⟩ := Option.map_eq_some_iff.mp hk
      have hcost : cost ≤ 2 := hfound cost rfl
      have hrest : j ≤ 2 * rest.length := hmore j hj
      rw [List.length_cons]
      omega

/-- Each conversion costs two at most. -/
theorem ensures_fixedCost (params args : List TypeName) :
    Ensures (fixedCost params args) fun found => ∀ k ∈ found, k ≤ 2 * args.length := by
  refine .ite (fun hlength => ?_) fun _ =>
    .pure fun k hk => absurd hk (Option.not_mem_none k)
  have hzip : (args.zip params).length = args.length := by
    rw [List.length_zip, hlength, Nat.min_self]
  exact hzip ▸ ensures_totalCost (args.zip params)

theorem ensures_packedCost (params args : List TypeName) :
    Ensures (packedCost params args) fun found => ∀ k ∈ found, packingCost ≤ k := by
  unfold packedCost
  split
  · exact .pure fun k hk => absurd hk (Option.not_mem_none k)
  · refine .ite (fun _ => .pure fun k hk => absurd hk (Option.not_mem_none k)) fun _ =>
      Ensures.trivial.bind fun found _ => ?_
    cases found with
    | none => exact .pure fun k hk => absurd hk (Option.not_mem_none k)
    | some cost =>
      refine Ensures.trivial.bind fun more _ => .pure fun k hk => ?_
      obtain ⟨j, -, rfl⟩ := Option.map_eq_some_iff.mp hk
      exact Nat.le_add_left _ _

/-! ## Ways to call a method -/

/-- What a search finds in a pool. -/
def foundIn {α : Type} (p : ClassPool) (search : Step (Option α)) : Option α :=
  (p.run search).1.toOption.join

/-- The cost of passing the arguments as they are. -/
def fixedIn (p : ClassPool) (types : List TypeName) (m : MethodSig) : Option Nat :=
  foundIn p (fixedCost m.params types)

/-- The cost of packing the last arguments, for a method that does not take them as they are. -/
def packedIn (p : ClassPool) (types : List TypeName) (m : MethodSig) : Option Nat :=
  if m.isVarargs ∧ fixedIn p types m = none then foundIn p (packedCost m.params types) else none

/-- The cost by which a method is compared with others. -/
def costIn (p : ClassPool) (types : List TypeName) (m : MethodSig) : Option Nat :=
  (fixedIn p types m).or (packedIn p types m)

/-- The way to call a method. -/
def wayIn (p : ClassPool) (types : List TypeName) (m : MethodSig) : Option Applicable :=
  (costIn p types m).map fun cost => ⟨m, cost, (fixedIn p types m).isNone⟩

/-- Whether the method takes the arguments can be told in the pool. -/
def Settles (p : ClassPool) (types : List TypeName) (m : MethodSig) : Prop :=
  ∃ found, (p.run (applicable types m)).1 = .ok found

theorem foundIn_of_run {α : Type} {search : Step (Option α)} {found : Option α}
    (h : search.run.run p = (.ok found, q)) : foundIn p search = found := by
  rw [foundIn, ClassPool.run, h]
  rfl

/-- What is found has what each result has. -/
theorem of_mem_foundIn {α : Type} {search : Step (Option α)} {P : α → Prop} {a : α}
    (hsearch : Ensures search fun found => ∀ a ∈ found, P a) (h : a ∈ foundIn p search) : P a := by
  rw [foundIn, ClassPool.run] at h
  rcases hrun : search.run.run p with ⟨result, q⟩
  rw [hrun] at h
  cases result with
  | error e => cases h
  | ok found => exact hsearch p found q hrun a h

theorem le_of_mem_fixedIn {k : Nat} (h : k ∈ fixedIn p types m) : k ≤ 2 * types.length :=
  of_mem_foundIn (P := (· ≤ 2 * types.length)) (ensures_fixedCost m.params types) h

theorem packingCost_le_of_mem_packedIn {k : Nat} (h : k ∈ packedIn p types m) :
    packingCost ≤ k := by
  unfold packedIn at h
  split_ifs at h
  · exact of_mem_foundIn (P := (packingCost ≤ ·)) (ensures_packedCost m.params types) h
  · cases h

theorem fixedIn_of_mem_packedIn {k : Nat} (h : k ∈ packedIn p types m) :
    fixedIn p types m = none := by
  unfold packedIn at h
  split_ifs at h with hm
  · exact hm.2
  · cases h

theorem costIn_of_fixedIn {k : Nat} (h : k ∈ fixedIn p types m) : costIn p types m = some k := by
  rw [costIn, Option.mem_def.mp h, Option.some_or]

theorem costIn_of_fixedIn_none (h : fixedIn p types m = none) :
    costIn p types m = packedIn p types m := by
  rw [costIn, h, Option.none_or]

theorem wayIn_of_fixedIn {k : Nat} (h : fixedIn p types m = some k) :
    wayIn p types m = some ⟨m, k, false⟩ := by
  rw [wayIn, costIn_of_fixedIn h, h]
  rfl

theorem wayIn_of_fixedIn_none (h : fixedIn p types m = none) :
    wayIn p types m = (packedIn p types m).map fun cost => ⟨m, cost, true⟩ := by
  rw [wayIn, costIn_of_fixedIn_none h, h]
  rfl

/-- The search for a way to call a method finds the one that the costs in the pool give. -/
theorem run_applicable (h : Settles p types m) :
    (p.run (applicable types m)).1 = .ok (wayIn p types m) := by
  obtain ⟨found, hfound⟩ := h
  rw [ClassPool.run, applicable] at hfound ⊢
  rcases hrun : (fixedCost m.params types).run.run p with ⟨result, q⟩
  cases result with
  | error e =>
    rw [run_bind_of_error hrun] at hfound
    cases hfound
  | ok fixed =>
    have hfixed : fixedIn p types m = fixed := foundIn_of_run hrun
    rw [run_bind_of_ok hrun] at hfound ⊢
    cases fixed with
    | some cost =>
      rw [wayIn_of_fixedIn hfixed]
      rfl
    | none =>
      rw [wayIn_of_fixedIn_none hfixed]
      dsimp only at hfound ⊢
      by_cases hvarargs : m.isVarargs
      · have hpackedIn : packedIn p types m = foundIn p (packedCost m.params types) :=
          if_pos ⟨hvarargs, hfixed⟩
        rw [if_pos hvarargs] at hfound ⊢
        have hloads : p.Loads q := (closed_fixedCost closed_loads m.params types).of_run hrun
        rcases hpacked : (packedCost m.params types).run.run q with ⟨result, r⟩
        have hsame := (closed_packedCost closed_blind m.params types q p hloads.agrees).1
        rw [hpacked] at hsame
        cases result with
        | error e =>
          rw [run_bind_of_error hpacked] at hfound
          cases hfound
        | ok packed =>
          rw [run_bind_of_ok hpacked, hpackedIn, foundIn, ClassPool.run, ← hsame]
          rfl
      · have hpackedIn : packedIn p types m = none := if_neg fun hboth => hvarargs hboth.1
        rw [if_neg hvarargs, hpackedIn]
        rfl

/-! ## The cheapest way -/

/-- The element is the first of those with the least cost; those without a cost do not count. -/
def IsFirstLeast {α : Type} (cost : α → Option Nat) (xs : List α) (x : α) : Prop :=
  ∃ before after k, xs = before ++ x :: after ∧ cost x = some k ∧
    (∀ y ∈ before, ∀ j ∈ cost y, k < j) ∧ ∀ y ∈ after, ∀ j ∈ cost y, k ≤ j

namespace IsFirstLeast

variable {α : Type} {cost cost' : α → Option Nat} {xs : List α} {x y : α}

theorem mem (h : IsFirstLeast cost xs x) : x ∈ xs := by
  obtain ⟨before, after, -, rfl, -⟩ := h
  exact List.mem_append_right _ List.mem_cons_self

theorem exists_cost (h : IsFirstLeast cost xs x) : ∃ k, cost x = some k := by
  obtain ⟨-, -, k, -, hk, -⟩ := h
  exact ⟨k, hk⟩

theorem le {k j : Nat} (h : IsFirstLeast cost xs x) (hk : k ∈ cost x) (hy : y ∈ xs)
    (hj : j ∈ cost y) : k ≤ j := by
  obtain ⟨before, after, k', rfl, hcost, hbefore, hafter⟩ := h
  obtain rfl : k' = k := Option.some.inj (hcost.symm.trans hk)
  obtain hy | hy := List.mem_append.mp hy
  · exact (hbefore y hy j hj).le
  obtain rfl | hy := List.mem_cons.mp hy
  · exact (Option.some.inj (hk.symm.trans hj)).le
  · exact hafter y hy j hj

/-- Where fewer elements have a cost, an element that has one is still the first of the least. -/
theorem restrict (h : IsFirstLeast cost xs x) (hx : cost' x = cost x)
    (hxs : ∀ y ∈ xs, ∀ j ∈ cost' y, j ∈ cost y) : IsFirstLeast cost' xs x := by
  obtain ⟨before, after, k, rfl, hcost, hbefore, hafter⟩ := h
  refine ⟨before, after, k, rfl, hx.trans hcost, fun y hy j hj => hbefore y hy j ?_,
    fun y hy j hj => hafter y hy j ?_⟩
  · exact hxs y (List.mem_append_left _ hy) j hj
  · exact hxs y (List.mem_append_right _ (List.mem_cons_of_mem _ hy)) j hj

end IsFirstLeast

/-- The best of the ways to call the methods is that of the first of the cheapest methods. -/
theorem foldl_cheaper (p : ClassPool) (types : List TypeName) (candidates : List MethodSig) :
    match (candidates.map (wayIn p types)).foldl cheaper none with
    | none => ∀ m ∈ candidates, costIn p types m = none
    | some a => IsFirstLeast (costIn p types) candidates a.method ∧
        wayIn p types a.method = some a := by
  induction candidates using List.reverseRecOn with
  | nil => exact fun m hm => absurd hm List.not_mem_nil
  | append_singleton candidates m ih =>
    rw [List.map_append, List.foldl_append]
    generalize (candidates.map (wayIn p types)).foldl cheaper none = best at ih
    change match cheaper best (wayIn p types m) with
      | none => _
      | some a => _
    cases hm : costIn p types m with
    | none =>
      have hway : wayIn p types m = none := by rw [wayIn, hm]; rfl
      rw [hway]
      cases best with
      | none => exact List.forall_mem_append.mpr ⟨ih, List.forall_mem_singleton.mpr hm⟩
      | some a =>
        obtain ⟨⟨before, after, k, rfl, hcost, hbefore, hafter⟩, ha⟩ := ih
        refine ⟨⟨before, after ++ [m], k, by simp, hcost, hbefore, ?_⟩, ha⟩
        refine List.forall_mem_append.mpr ⟨hafter, List.forall_mem_singleton.mpr ?_⟩
        rw [hm]
        exact fun j hj => absurd hj (Option.not_mem_none j)
    | some k =>
      have hway : wayIn p types m = some ⟨m, k, (fixedIn p types m).isNone⟩ := by
        rw [wayIn, hm]
        rfl
      cases best with
      | none =>
        rw [hway]
        refine ⟨⟨candidates, [], k, rfl, hm, fun y hy j hj => ?_,
          fun y hy => absurd hy List.not_mem_nil⟩, hway⟩
        rw [ih y hy] at hj
        cases hj
      | some a =>
        obtain ⟨hleast, ha⟩ := ih
        have hcost : costIn p types a.method = some a.cost := by
          obtain ⟨j, hj, hja⟩ := Option.map_eq_some_iff.mp ha
          rw [hj, ← hja]
        rw [hway]
        by_cases hlt : k < a.cost
        · rw [show cheaper (some a) (some ⟨m, k, (fixedIn p types m).isNone⟩) =
            some ⟨m, k, (fixedIn p types m).isNone⟩ from if_pos hlt]
          refine ⟨⟨candidates, [], k, rfl, hm, fun y hy j hj => ?_,
          fun y hy => absurd hy List.not_mem_nil⟩, hway⟩
          exact hlt.trans_le (hleast.le hcost hy hj)
        · rw [show cheaper (some a) (some ⟨m, k, (fixedIn p types m).isNone⟩) = some a
            from if_neg hlt]
          obtain ⟨before, after, k', rfl, hcost', hbefore, hafter⟩ := hleast
          obtain rfl : k' = a.cost := Option.some.inj (hcost'.symm.trans hcost)
          refine ⟨⟨before, after ++ [m], a.cost, by simp, hcost, hbefore, ?_⟩, ha⟩
          refine List.forall_mem_append.mpr ⟨hafter, List.forall_mem_singleton.mpr ?_⟩
          intro j hj
          obtain rfl : k = j := Option.some.inj (hm.symm.trans hj)
          exact Nat.le_of_not_lt hlt

/-- Looking one method up does not change what is found out about the next one. -/
theorem run_cheapest (h : ∀ m ∈ candidates, Settles p types m) :
    (p.run (cheapest types candidates)).1 =
      .ok ((candidates.map (wayIn p types)).foldl cheaper none) := by
  have hfold (best : Option Applicable) (q : ClassPool) (hagrees : q.Agrees p) :
      (q.run (candidates.foldlM (fun best m => return cheaper best (← applicable types m))
        best)).1 = .ok ((candidates.map (wayIn p types)).foldl cheaper best) := by
    induction candidates generalizing best q with
    | nil => rfl
    | cons m candidates ih =>
      obtain ⟨hm, hcandidates⟩ := List.forall_mem_cons.mp h
      have hway := run_applicable hm
      rw [ClassPool.run, ← (closed_applicable closed_blind types m q p hagrees).1] at hway
      rcases hrun : (applicable types m).run.run q with ⟨result, r⟩
      rw [hrun] at hway
      obtain rfl : result = .ok (wayIn p types m) := hway
      have hloads : q.Loads r := (closed_applicable closed_loads types m).of_run hrun
      have hstep :
          (do return cheaper best (← applicable types m) : Step (Option Applicable)).run.run q =
            (.ok (cheaper best (wayIn p types m)), r) := run_bind_of_ok hrun
      rw [List.foldlM_cons, ClassPool.run, run_bind_of_ok hstep]
      exact ih hcandidates _ r (trans_of Agrees hloads.agrees hagrees)
  exact hfold none p (refl_of Agrees p)

theorem settles_of_run_cheapest {best best' : Option Applicable} {q r : ClassPool}
    (hagrees : q.Agrees p)
    (h : (candidates.foldlM (fun best m => return cheaper best (← applicable types m)) best :
      Step (Option Applicable)).run.run q = (.ok best', r)) :
    ∀ m ∈ candidates, Settles p types m := by
  induction candidates generalizing best q with
  | nil => exact fun m hm => absurd hm List.not_mem_nil
  | cons m candidates ih =>
    rw [List.foldlM_cons] at h
    obtain ⟨next, q', hstep, hrest⟩ := of_run_bind_ok h
    obtain ⟨found, q'', hfound, hpure⟩ := of_run_bind_ok hstep
    obtain ⟨-, rfl⟩ := Prod.mk.inj hpure
    have hloads : q.Loads q'' := (closed_applicable closed_loads types m).of_run hfound
    refine List.forall_mem_cons.mpr ⟨⟨found, ?_⟩, ih (trans_of Agrees hloads.agrees hagrees) hrest⟩
    rw [ClassPool.run, ← (closed_applicable closed_blind types m q p hagrees).1, hfound]

/-! ## Packing as the last resort -/

/-- If a method takes the arguments as they are, then each packing costs more than such a method, or
as much as one in front of it. -/
def PackingYields (p : ClassPool) (types : List TypeName) (candidates : List MethodSig) : Prop :=
  (∃ m ∈ candidates, (fixedIn p types m).isSome) →
    ∀ before m after, candidates = before ++ m :: after → ∀ k ∈ packedIn p types m,
      (∃ m' ∈ before, ∃ j ∈ fixedIn p types m', j ≤ k) ∨
        ∃ m' ∈ after, ∃ j ∈ fixedIn p types m', j < k

/-- Packing costs more than the conversions of fewer than fifty arguments. -/
theorem packingYields_of_few (h : 2 * types.length < packingCost) :
    PackingYields p types candidates := by
  rintro ⟨m', hm', hfixed⟩ before m after rfl k hk
  obtain ⟨j, hj⟩ := Option.isSome_iff_exists.mp hfixed
  have hlt : j < k := calc
    j ≤ 2 * types.length := le_of_mem_fixedIn hj
    _ < packingCost := h
    _ ≤ k := packingCost_le_of_mem_packedIn hk
  obtain hm' | hm' := List.mem_append.mp hm'
  · exact .inl ⟨m', hm', j, hj, hlt.le⟩
  obtain rfl | hm' := List.mem_cons.mp hm'
  · rw [fixedIn_of_mem_packedIn hk] at hj
    cases hj
  · exact .inr ⟨m', hm', j, hj, hlt⟩

/-- Where packings yield, the cheapest method takes the arguments as they are if any does. -/
theorem PackingYields.isFirstLeast (h : PackingYields p types candidates)
    (hfits : ∃ m ∈ candidates, (fixedIn p types m).isSome)
    (hleast : IsFirstLeast (costIn p types) candidates m) :
    IsFirstLeast (fixedIn p types) candidates m := by
  cases hfixed : fixedIn p types m with
  | some k =>
    exact hleast.restrict (hfixed.trans (costIn_of_fixedIn hfixed).symm)
      fun _ _ _ hj => costIn_of_fixedIn hj
  | none =>
    obtain ⟨before, after, k, rfl, hcost, hbefore, hafter⟩ := hleast
    have hpacked : k ∈ packedIn p types m := (costIn_of_fixedIn_none hfixed).symm.trans hcost
    obtain ⟨m', hm', j, hj, hle⟩ | ⟨m', hm', j, hj, hlt⟩ := h hfits before m after rfl k hpacked
    · exact absurd hle (Nat.not_le_of_lt (hbefore m' hm' j (costIn_of_fixedIn hj)))
    · exact absurd hlt (Nat.not_lt_of_le (hafter m' hm' j (costIn_of_fixedIn hj)))

/-- Where some packing does not yield, the cheapest method packs. -/
theorem fixedIn_of_not_packingYields (h : ¬ PackingYields p types candidates)
    (hleast : IsFirstLeast (costIn p types) candidates m) : fixedIn p types m = none := by
  unfold PackingYields at h
  push Not at h
  obtain ⟨-, before, m', after, rfl, k', hk', hbefore, hafter⟩ := h
  have hcost' : k' ∈ costIn p types m' :=
    (costIn_of_fixedIn_none (fixedIn_of_mem_packedIn hk')).trans hk'
  by_contra hfixed
  obtain ⟨k, hk⟩ := Option.ne_none_iff_exists'.mp hfixed
  have hm' : m' ∈ before ++ m' :: after := List.mem_append_right _ List.mem_cons_self
  have hle : k ≤ k' := hleast.le (costIn_of_fixedIn hk) hm' hcost'
  obtain ⟨before', after', k'', hsplit, hcost, hbefore', -⟩ := hleast
  obtain rfl : k = k'' := Option.some.inj ((costIn_of_fixedIn hk).symm.trans hcost)
  -- The cheapest method stands behind the packing, and does not cost less.
  obtain ⟨rest, hbefore_eq, hrest⟩ | ⟨rest, hbefore_eq, hrest⟩ :=
    List.append_eq_append_iff.mp hsplit
  · cases rest with
    | nil =>
      obtain ⟨rfl, -⟩ := List.cons.inj hrest
      exact hfixed (fixedIn_of_mem_packedIn hk')
    | cons first rest =>
      obtain ⟨rfl, rfl⟩ := List.cons.inj hrest
      have hlt : k < k' := hbefore' m' (hbefore_eq ▸ by simp) k' hcost'
      exact absurd hlt (Nat.not_lt_of_le (hafter m (by simp) k hk))
  · cases rest with
    | nil =>
      obtain ⟨rfl, -⟩ := List.cons.inj hrest
      exact hfixed (fixedIn_of_mem_packedIn hk')
    | cons first rest =>
      obtain ⟨rfl, rfl⟩ := List.cons.inj hrest
      exact absurd hle (Nat.not_le_of_lt (hbefore m (hbefore_eq ▸ by simp) k hk))

/-! ### Boxing against packing -/

theorem run_conversionCost_object :
    (conversionCost .int .object).run.run p = (.ok (some 2), p) := by
  have hsubtype :
      (ClassPool.isSubtype ⟨"java.lang.Integer"⟩ .object).run.run p = (.ok true, p) := by
    rw [ClassPool.isSubtype]
    rfl
  exact run_bind_of_ok hsubtype

theorem run_totalCost_replicate {source target : TypeName} {cost : Nat}
    (h : (conversionCost source target).run.run p = (.ok (some cost), p)) (n : Nat) :
    (totalCost (.replicate n (source, target))).run.run p = (.ok (some (n * cost)), p) := by
  induction n with
  | zero =>
    rw [Nat.zero_mul]
    rfl
  | succ n ih =>
    rw [List.replicate_succ, totalCost, run_bind_of_ok h]
    dsimp only
    rw [run_bind_of_ok ih, Nat.succ_mul, Nat.add_comm]
    rfl

theorem fixedIn_replicate {source target : TypeName} {cost n : Nat}
    (h : (conversionCost source target).run.run p = (.ok (some cost), p))
    (hparams : m.params = .replicate n target) :
    fixedIn p (.replicate n source) m = some (n * cost) := by
  have hlength : (List.replicate n target).length = (List.replicate n source).length := by
    rw [List.length_replicate, List.length_replicate]
  refine foundIn_of_run (q := p) ?_
  rw [hparams, fixedCost, if_pos hlength, List.zip_replicate']
  exact run_totalCost_replicate h n

theorem run_packedCost_replicate {source array : TypeName} {cost : Nat}
    (h : (conversionCost source array.elementType).run.run p = (.ok (some cost), p)) (n : Nat) :
    (packedCost [array] (.replicate n source)).run.run p =
      (.ok (some (n * cost + packingCost)), p) := by
  have hrest := run_totalCost_replicate h n
  rw [← List.map_replicate (f := fun t => (t, array.elementType))] at hrest
  change (do
    let rest ← totalCost ((List.replicate n source).map fun t => (t, array.elementType))
    return rest.map fun more => 0 + more + packingCost : Step (Option Nat)).run.run p = _
  rw [run_bind_of_ok hrest, Option.map_some, Nat.zero_add]
  rfl

/-- More than fifty numbers are packed rather than boxed. -/
theorem not_packingYields_of_boxing {fixed packed : MethodSig} {n : Nat} (hn : 50 < n)
    (hfixed : fixed.params = .replicate n .object)
    (hpacked : packed.params = [TypeName.int.arrayOf])
    (hvarargs : packed.isVarargs = true) :
    ¬ PackingYields p (.replicate n .int) [fixed, packed] := by
  have hint : (conversionCost .int .int).run.run p = (.ok (some 0), p) := rfl
  have hfixedIn := fixedIn_replicate (run_conversionCost_object (p := p)) hfixed
  have hnone : fixedIn p (.replicate n .int) packed = none := by
    refine foundIn_of_run (q := p) ?_
    rw [hpacked, fixedCost, if_neg]
    · rfl
    · rw [List.length_replicate]
      exact fun h => absurd (h ▸ hn) (by decide)
  have hpackedIn : packedIn p (.replicate n .int) packed = some (n * 0 + packingCost) := by
    rw [packedIn, if_pos ⟨hvarargs, hnone⟩, hpacked]
    exact foundIn_of_run (run_packedCost_replicate hint n)
  intro h
  obtain ⟨m', hm', j, hj, hle⟩ | ⟨m', hm', -⟩ :=
    h ⟨fixed, List.mem_cons_self, hfixedIn ▸ rfl⟩ [fixed] packed [] rfl _ hpackedIn
  · obtain rfl := List.mem_singleton.mp hm'
    obtain rfl := Option.some.inj (hfixedIn.symm.trans hj)
    unfold packingCost at hle
    omega
  · exact absurd hm' List.not_mem_nil

end ClassSynth.Binding

namespace ClassSynth.Scope

open Binding (Settles fixedIn packedIn costIn wayIn IsFirstLeast PackingYields run_cheapest
  foldl_cheaper convertArguments coerce wayIn_of_fixedIn wayIn_of_fixedIn_none)

variable {p : ClassPool} {shown : Template} {owner : TypeName} {name : String}
  {candidates : List MethodSig} {args : List Typed}

/-! ## Selected methods -/

/-- If it can be told of each method whether it takes the arguments, then the first of the cheapest
methods is called, with the arguments in the way that it takes them. -/
theorem run_select (shown : Template) (owner : TypeName) (name : String)
    (hsettles : ∀ m ∈ candidates, Settles p (args.map Typed.type) m) :
    (∃ m way, IsFirstLeast (costIn p (args.map Typed.type)) candidates m ∧
      wayIn p (args.map Typed.type) m = some way ∧
      (p.run (select shown owner name candidates args)).1 =
        .ok (m, convertArguments way args)) ∨
    (∀ m ∈ candidates, costIn p (args.map Typed.type) m = none) ∧
      (p.run (select shown owner name candidates args)).1 =
        .error (.template shown.print (.noApplicableMethod owner.text name
          ((args.map Typed.type).map TypeName.text))) := by
  have hcheapest := run_cheapest hsettles
  have hbest := foldl_cheaper p (args.map Typed.type) candidates
  rw [ClassPool.run, select]
  rcases hrun : (Binding.cheapest (args.map Typed.type) candidates).run.run p with ⟨result, q⟩
  rw [ClassPool.run, hrun] at hcheapest
  obtain rfl := hcheapest
  rw [run_bind_of_ok hrun]
  generalize (candidates.map (wayIn p (args.map Typed.type))).foldl Binding.cheaper none = best
    at hbest
  cases best with
  | none => exact .inr ⟨hbest, rfl⟩
  | some way => exact .inl ⟨way.method, way, hbest.1, hbest.2, rfl⟩

/-- A method is selected only if it can be told of each method whether it takes the arguments. -/
theorem settles_of_run_select {result : MethodSig × List Expr}
    (h : (p.run (select shown owner name candidates args)).1 = .ok result) :
    ∀ m ∈ candidates, Settles p (args.map Typed.type) m := by
  rcases hrun : (select shown owner name candidates args).run.run p with ⟨selected, q⟩
  rw [ClassPool.run, hrun] at h
  obtain rfl := h
  obtain ⟨best, r, hbest, -⟩ := of_run_bind_ok hrun
  exact Binding.settles_of_run_cheapest (refl_of ClassPool.Agrees p) hbest

/-- Packing is the last resort. A method is selected if it can be told of each method whether it
takes the arguments, and one does. With fewer than fifty arguments, and with any number of them if
packings yield, it is the first of the methods that take the arguments as they are at the least cost
of the conversions, and only if no method takes them as they are, the last of them are packed. -/
theorem select_packs_last (shown : Template) (owner : TypeName) (name : String)
    (candidates : List MethodSig) (args : List Typed)
    (hyields : 2 * args.length < Binding.packingCost ∨
      PackingYields p (args.map Typed.type) candidates) :
    ((∃ result, (p.run (select shown owner name candidates args)).1 = .ok result) ↔
      (∀ m ∈ candidates, Settles p (args.map Typed.type) m) ∧
        ∃ m ∈ candidates, (costIn p (args.map Typed.type) m).isSome) ∧
    ∀ m values, (p.run (select shown owner name candidates args)).1 = .ok (m, values) →
      IsFirstLeast (fixedIn p (args.map Typed.type)) candidates m ∧
        values = (m.params.zip args).map (fun (param, arg) => coerce param arg) ∨
      (∀ m' ∈ candidates, fixedIn p (args.map Typed.type) m' = none) ∧
        IsFirstLeast (packedIn p (args.map Typed.type)) candidates m ∧
        ∃ cost, packedIn p (args.map Typed.type) m = some cost ∧
          values = convertArguments ⟨m, cost, true⟩ args := by
  have hyields : PackingYields p (args.map Typed.type) candidates :=
    hyields.elim (fun hfew => Binding.packingYields_of_few (by rwa [List.length_map])) id
  refine ⟨⟨fun ⟨result, hresult⟩ => ?_, fun ⟨hsettles, m, hm, hcost⟩ => ?_⟩,
    fun m values hresult => ?_⟩
  · have hsettles := settles_of_run_select hresult
    refine ⟨hsettles, ?_⟩
    obtain ⟨m, way, hleast, hway, -⟩ | ⟨-, hfails⟩ :=
      run_select shown owner name hsettles
    · exact ⟨m, hleast.mem, by rw [← Option.isSome_map, ← wayIn, hway]; rfl⟩
    · rw [hfails] at hresult
      cases hresult
  · obtain ⟨m', way, -, -, hselect⟩ | ⟨hnone, -⟩ :=
      run_select shown owner name hsettles
    · exact ⟨_, hselect⟩
    · rw [hnone m hm] at hcost
      cases hcost
  · obtain ⟨m', way, hleast, hway, hselect⟩ | ⟨-, hfails⟩ :=
      run_select shown owner name (settles_of_run_select hresult)
    · obtain ⟨rfl, rfl⟩ := Prod.mk.inj (Except.ok.inj (hselect.symm.trans hresult))
      by_cases hfits : ∃ m ∈ candidates, (fixedIn p (args.map Typed.type) m).isSome
      · have hfirst := hyields.isFirstLeast hfits hleast
        obtain ⟨cost, hcost⟩ := hfirst.exists_cost
        obtain rfl := Option.some.inj (hway.symm.trans (wayIn_of_fixedIn hcost))
        exact .inl ⟨hfirst, rfl⟩
      · have hnone : ∀ m ∈ candidates, fixedIn p (args.map Typed.type) m = none := by
          simpa using hfits
        have hcosts {m : MethodSig} (hm : m ∈ candidates) :=
          Binding.costIn_of_fixedIn_none (hnone m hm)
        rw [wayIn_of_fixedIn_none (hnone m' hleast.mem)] at hway
        obtain ⟨cost, hcost, rfl⟩ := Option.map_eq_some_iff.mp hway
        refine .inr ⟨hnone, hleast.restrict (hcosts hleast.mem).symm ?_, cost, hcost, rfl⟩
        exact fun y hy j hj => (hcosts hy).trans hj
    · rw [hfails] at hresult
      cases hresult

/-- Two `byte` arguments are widened rather than packed. -/
theorem select_packs_last_widening :
    2 * [Typed.mk (.param 1) ⟨"byte"⟩, ⟨.param 2, ⟨"byte"⟩⟩].length < Binding.packingCost ∧
    (ClassPool.run { major := 52 } (select .null ⟨"demo.Sum"⟩ "of"
      [⟨⟨"demo.Sum"⟩, "of", [⟨"byte[]"⟩], .int, 0x89⟩, ⟨⟨"demo.Sum"⟩, "of", [.int, .int], .int, 9⟩]
      [⟨.param 1, ⟨"byte"⟩⟩, ⟨.param 2, ⟨"byte"⟩⟩])).1 =
        .ok (⟨⟨"demo.Sum"⟩, "of", [.int, .int], .int, 9⟩, [.param 1, .param 2]) := by
  refine ⟨by decide, ?_⟩
  have hselect := select_packs_last (p := { major := 52 }) .null ⟨"demo.Sum"⟩ "of"
    [⟨⟨"demo.Sum"⟩, "of", [⟨"byte[]"⟩], .int, 0x89⟩, ⟨⟨"demo.Sum"⟩, "of", [.int, .int], .int, 9⟩]
    [⟨.param 1, ⟨"byte"⟩⟩, ⟨.param 2, ⟨"byte"⟩⟩] (.inl (by decide))
  obtain ⟨⟨m, values⟩, hresult⟩ := hselect.1.mpr
    ⟨List.forall_mem_cons.mpr ⟨⟨_, rfl⟩, List.forall_mem_singleton.mpr ⟨_, rfl⟩⟩,
      _, List.mem_cons_of_mem _ List.mem_cons_self, rfl⟩
  rw [hresult]
  obtain ⟨hfirst, rfl⟩ | ⟨hnone, -⟩ := hselect.2 m values hresult
  · obtain rfl | hm := List.mem_cons.mp hfirst.mem
    · obtain ⟨cost, hcost⟩ := hfirst.exists_cost
      cases hcost
    · obtain rfl := List.mem_singleton.mp hm
      rfl
  · cases hnone _ (List.mem_cons_of_mem _ List.mem_cons_self)

/-- Where some packing does not yield, arguments are packed though a method takes them as they
are. -/
theorem select_packs_early {m : MethodSig} {values : List Expr}
    (hyields : ¬ PackingYields p (args.map Typed.type) candidates)
    (h : (p.run (select shown owner name candidates args)).1 = .ok (m, values)) :
    (∃ m' ∈ candidates, (fixedIn p (args.map Typed.type) m').isSome) ∧
      fixedIn p (args.map Typed.type) m = none ∧
      ∃ cost, values = convertArguments ⟨m, cost, true⟩ args := by
  obtain ⟨m', way, hleast, hway, hselect⟩ | ⟨-, hfails⟩ :=
    run_select shown owner name (settles_of_run_select h)
  · obtain ⟨rfl, rfl⟩ := Prod.mk.inj (Except.ok.inj (hselect.symm.trans h))
    have hfixed := Binding.fixedIn_of_not_packingYields hyields hleast
    rw [wayIn_of_fixedIn_none hfixed] at hway
    obtain ⟨cost, -, rfl⟩ := Option.map_eq_some_iff.mp hway
    exact ⟨(Classical.not_imp.mp hyields).1, hfixed, cost, rfl⟩
  · rw [hfails] at h
    cases h

end ClassSynth.Scope
