import ClassSynth.Proofs.BreadthFirst
import ClassSynth.Proofs.Pool.Counting
import Mathlib.Logic.Relation

/-!
# Hierarchies in order

A walk over a hierarchy either fails at a class above its roots that cannot be visited, or finds all
classes above them, each once, the nearer ones first, and those of one level in the order in which
they were discovered (`ClassPool.IsHierarchy`). The queue and the visited classes of a walk are those
of a visit level by level (`Walk.Explores`). Every level but the last one has a class to find, and a
pool has no more names than its count, so the fuel suffices (`Walk.Ends`).

Main result: `ClassPool.hierarchy_in_order`. Members are those of the first class in this order that
declares them.
-/

namespace ClassSynth

/-- The supertypes and the members of the class can be read. -/
structure ClassUnit.Readable (c : ClassUnit) : Prop where
  supertypes : ∃ supertypes, c.directSupertypes = .ok supertypes
  methods : ∃ methods, c.methods = .ok methods
  fields : ∃ fields, c.fields = .ok fields

namespace ClassPool

variable {p p' : ClassPool} {roots : List TypeName}

/-! ## Lookups -/

theorem decides_find (name : String) :
    Decides p.Loads (find name) (fun found => p.lookup name = .ok found)
      (∃ e, p.lookup name = .error e) := by
  intro q hloads
  obtain ⟨q', hrun, hloads', -⟩ := run_find q name
  rw [hrun, hloads.lookup]
  cases hlookup : p.lookup name with
  | ok found => exact ⟨trans_of Loads hloads hloads', rfl⟩
  | error e => exact ⟨e, rfl⟩

theorem within_find (name : String) :
    Within p.Loads (find name) fun found => p.lookup name = .ok found :=
  (decides_find name).within

theorem decides_getUnit (name : String) :
    Decides p.Loads (getUnit name) (fun unit => p.lookup name = .ok (some unit))
      (∀ unit, p.lookup name ≠ .ok (some unit)) := by
  have hfind : Decides p.Loads (find name) (fun found => p.lookup name = .ok found)
      (∀ unit, p.lookup name ≠ .ok (some unit)) := by
    refine (decides_find name).mono (fun _ => id) ?_
    rintro ⟨e, he⟩ unit hunit
    rw [he] at hunit
    cases hunit
  refine hfind.bind fun found hfound => ?_
  cases found with
  | some unit => exact .pure hfound
  | none =>
    refine .throw fun unit hunit => ?_
    rw [hfound] at hunit
    cases hunit

theorem within_getUnit (name : String) :
    Within p.Loads (getUnit name) fun unit => p.lookup name = .ok (some unit) :=
  (decides_getUnit name).within

/-- A step that loads classes, of which no result is demanded. -/
theorem Loads.within {α : Type} {step : Step α} (h : Keeps Loads step) :
    Within p.Loads step fun _ => True :=
  .of_keeps h fun _ _ hstep hloads => trans_of Loads hloads hstep

/-! ## Classes above others -/

/-- The first class names the second one as its superclass or among its interfaces. -/
def Extends (p : ClassPool) (s t : TypeName) : Prop :=
  ∃ unit supertypes, p.lookup s.text = .ok (some unit) ∧
    unit.directSupertypes = .ok supertypes ∧ t ∈ supertypes

/-- The class is one of the roots or above one. -/
def Above (p : ClassPool) (roots : List TypeName) (t : TypeName) : Prop :=
  ∃ root ∈ roots, Relation.ReflTransGen p.Extends root t

/-- The pool has a class of the name. -/
def hasClass (p : ClassPool) (t : TypeName) : Bool :=
  match p.lookup t.text with
  | .ok (some _) => true
  | _ => false

/-- The superclass and the interfaces that a class names, in this order. -/
def supertypesOf (p : ClassPool) (t : TypeName) : List TypeName :=
  match p.lookup t.text with
  | .ok (some unit) => unit.directSupertypes.toOption.getD []
  | _ => []

/-- The class can be visited: its supertypes can be read, or the pool may do without it. -/
def Visitable (p : ClassPool) (t : TypeName) : Prop :=
  match p.lookup t.text with
  | .ok (some unit) => ∃ supertypes, unit.directSupertypes = .ok supertypes
  | .ok none => p.validate = false
  | .error _ => False

section

variable {t : TypeName}

theorem hasClass_iff : p.hasClass t = true ↔ ∃ unit, p.lookup t.text = .ok (some unit) := by
  rw [hasClass]
  rcases p.lookup t.text with e | _ | unit
  · simp
  · simp
  · simp

theorem supertypesOf_eq {unit : ClassUnit} {supertypes : List TypeName}
    (h : p.lookup t.text = .ok (some unit)) (hsupertypes : unit.directSupertypes = .ok supertypes) :
    p.supertypesOf t = supertypes := by
  rw [supertypesOf, h]
  dsimp only
  rw [hsupertypes]
  rfl

theorem supertypesOf_eq_nil (h : p.hasClass t = false) : p.supertypesOf t = [] := by
  rw [hasClass] at h
  rw [supertypesOf]
  rcases hlookup : p.lookup t.text with e | _ | unit
  · rfl
  · rfl
  · rw [hlookup] at h
    cases h

theorem extends_iff {s : TypeName} : p.Extends s t ↔ t ∈ p.supertypesOf s := by
  constructor
  · rintro ⟨unit, supertypes, hlookup, hsupertypes, ht⟩
    rwa [supertypesOf_eq hlookup hsupertypes]
  · intro ht
    rw [supertypesOf] at ht
    split at ht
    · next unit hlookup =>
      cases hsupertypes : unit.directSupertypes with
      | error e =>
        rw [hsupertypes] at ht
        cases ht
      | ok supertypes =>
        rw [hsupertypes] at ht
        exact ⟨unit, supertypes, hlookup, hsupertypes, ht⟩
    · cases ht

theorem Above.step {s : TypeName} (h : p.Above roots s) (ht : t ∈ p.supertypesOf s) :
    p.Above roots t :=
  let ⟨root, hroot, habove⟩ := h
  ⟨root, hroot, habove.tail (extends_iff.mpr ht)⟩

theorem above_iff : p.Above roots t ↔ ∃ n, ReachedIn p.supertypesOf roots n t := by
  constructor
  · rintro ⟨root, hroot, habove⟩
    induction habove with
    | refl => exact ⟨0, root, hroot, .refl⟩
    | tail _ hextends ih =>
      obtain ⟨n, hn⟩ := ih
      exact ⟨n + 1, hn.step (extends_iff.mp hextends)⟩
  · rintro ⟨n, root, hroot, hsteps⟩
    induction hsteps with
    | refl => exact ⟨root, hroot, .refl⟩
    | step _ ht ih => exact ih.step ht

end

/-! ## Hierarchies -/

/-- The classes above the roots in the order of a visit level by level. -/
structure IsHierarchy (p : ClassPool) (roots order : List TypeName) : Prop where
  nodup : order.Nodup
  mem_iff : ∀ t, t ∈ order ↔ p.hasClass t = true ∧ p.Above roots t
  /-- A class that comes first is no farther from the roots. -/
  nearest : order.Pairwise fun s t =>
    ∀ n, ReachedIn p.supertypesOf roots n t → ∃ k ≤ n, ReachedIn p.supertypesOf roots k s
  /-- The roots come first, then the supertypes of one class after the other, each where it is
  named first. -/
  discovered : order = (roots ++ order.flatMap p.supertypesOf).eraseDups.filter p.hasClass

/-! ## Walks -/

/-- What a walk keeps, while classes of its level are pending. -/
structure Walk.Explores (p : ClassPool) (roots pending : List TypeName) (w : Walk) : Prop where
  visits : Visits p.supertypesOf roots (pending ++ w.queue) w.seen.reverse
  found : w.found = w.seen.filter p.hasClass
  above : ∀ t ∈ pending ++ w.queue ++ w.seen, p.Above roots t
  visitable : ∀ t ∈ w.seen, p.Visitable t

namespace Walk.Explores

variable {pending : List TypeName} {w : Walk} {name : TypeName}

theorem initial (p : ClassPool) (roots : List TypeName) :
    Walk.Explores p roots [] { queue := roots } where
  visits := .initial
  found := rfl
  above t ht := ⟨t, by simpa using ht, .refl⟩
  visitable _ ht := absurd ht List.not_mem_nil

/-- A class that was visited before is only taken from the level. -/
theorem skip (h : w.Explores p roots (name :: pending)) (hname : name ∈ w.seen) :
    w.Explores p roots pending where
  visits := h.visits.skip (List.mem_reverse.mpr hname)
  found := h.found
  above t ht := h.above t (List.mem_cons_of_mem name ht)
  visitable := h.visitable

/-- The supertypes of a class are on the next level. -/
theorem visit (h : w.Explores p roots (name :: pending)) (hnew : name ∉ w.seen)
    (hvisitable : p.Visitable name) {found : List TypeName}
    (hfound : found = (name :: w.seen).filter p.hasClass) :
    Walk.Explores p roots pending
      { queue := w.queue ++ p.supertypesOf name, seen := name :: w.seen, found } where
  visits := by
    have hvisits : Visits p.supertypesOf roots (pending ++ w.queue ++ p.supertypesOf name)
        (w.seen.reverse ++ [name]) :=
      h.visits.visit fun hmem => hnew (List.mem_reverse.mp hmem)
    rwa [List.append_assoc, ← List.reverse_cons] at hvisits
  found := hfound
  above := by
    have hname : p.Above roots name := h.above name List.mem_cons_self
    intro t ht
    simp only [List.mem_append, List.mem_cons] at ht
    obtain (ht | ht | ht) | rfl | ht := ht
    · exact h.above t (by simp [ht])
    · exact h.above t (by simp [ht])
    · exact hname.step ht
    · exact hname
    · exact h.above t (by simp [ht])
  visitable := List.forall_mem_cons.mpr ⟨hvisitable, h.visitable⟩

/-- A walk that is over found the hierarchy. -/
theorem isHierarchy (h : w.Explores p roots []) (hqueue : w.queue = []) :
    p.IsHierarchy roots w.found.reverse ∧ ∀ t, p.Above roots t → p.Visitable t := by
  have hvisits := h.visits
  rw [hqueue, List.append_nil] at hvisits
  have hseen (t : TypeName) : t ∈ w.seen ↔ p.Above roots t := by
    refine ⟨fun ht => h.above t (List.mem_append_right _ ht), fun ht => ?_⟩
    obtain ⟨n, hn⟩ := above_iff.mp ht
    exact List.mem_reverse.mp (hvisits.mem_of_reachedIn hn)
  have hfound : w.found.reverse = w.seen.reverse.filter p.hasClass := by
    rw [h.found, List.filter_reverse]
  -- Only classes that are there name supertypes.
  have hnamed : w.found.reverse.flatMap p.supertypesOf = w.seen.reverse.flatMap p.supertypesOf := by
    rw [hfound]
    generalize w.seen.reverse = seen
    induction seen with
    | nil => rfl
    | cons t seen ih =>
      cases ht : p.hasClass t with
      | true => rw [List.filter_cons_of_pos ht, List.flatMap_cons, List.flatMap_cons, ih]
      | false =>
        rw [List.filter_cons_of_neg (by simp [ht]), List.flatMap_cons, supertypesOf_eq_nil ht, ih,
          List.nil_append]
  refine ⟨⟨?_, fun t => ?_, ?_, ?_⟩, fun t ht => h.visitable t ((hseen t).mpr ht)⟩
  · rw [hfound]
    exact hvisits.nodup.filter _
  · rw [hfound, List.mem_filter, List.mem_reverse, hseen, and_comm]
  · rw [hfound]
    exact hvisits.pairwise_reachedIn.filter _
  · rw [hnamed, ← hvisits.eq_eraseDups, hfound]

end Walk.Explores

/-- A walk visits a class, or fails because the class cannot be visited. -/
theorem decides_visit {pending : List TypeName} {w : Walk} {name : TypeName}
    (hw : w.Explores p roots (name :: pending)) :
    Decides p.Loads (visit w name) (Walk.Explores p roots pending)
      (∃ t, p.Above roots t ∧ ¬ p.Visitable t) := by
  have habove : p.Above roots name := hw.above name List.mem_cons_self
  refine .ite (fun hseen => .pure (hw.skip (List.contains_iff_mem.mp hseen))) fun hnew => ?_
  have hnew : name ∉ w.seen := by simpa using hnew
  have hfind : Decides p.Loads (find name.text) (fun found => p.lookup name.text = .ok found)
      (∃ t, p.Above roots t ∧ ¬ p.Visitable t) := by
    refine (decides_find name.text).mono (fun _ => id) ?_
    rintro ⟨e, he⟩
    refine ⟨name, habove, ?_⟩
    rw [Visitable, he]
    exact not_false
  refine hfind.bind fun found hfound => ?_
  cases found with
  | some unit =>
    have hclass : p.hasClass name = true := hasClass_iff.mpr ⟨unit, hfound⟩
    have hlift : Decides p.Loads (lift unit.directSupertypes)
        (fun supertypes => unit.directSupertypes = .ok supertypes)
        (∃ t, p.Above roots t ∧ ¬ p.Visitable t) := by
      refine .lift (fun _ => id) fun e he => ⟨name, habove, ?_⟩
      rw [Visitable, hfound]
      rintro ⟨supertypes, hsupertypes⟩
      rw [he] at hsupertypes
      cases hsupertypes
    refine hlift.bind fun supertypes hsupertypes => .pure ?_
    have hvisitable : p.Visitable name := by
      rw [Visitable, hfound]
      exact ⟨supertypes, hsupertypes⟩
    rw [← supertypesOf_eq hfound hsupertypes]
    exact hw.visit hnew hvisitable (by rw [List.filter_cons_of_pos hclass, hw.found])
  | none =>
    have hclass : p.hasClass name = false := by rw [hasClass, hfound]
    refine Decides.get.bind fun q hq => .ite (fun hvalidate => .throw ⟨name, habove, ?_⟩)
      fun hlenient => .pure ?_
    · rw [Visitable, hfound, ← hq.validate, hvalidate]
      exact Bool.noConfusion
    · have hvisitable : p.Visitable name := by
        rw [Visitable, hfound, ← hq.validate]
        exact Bool.not_eq_true _ ▸ hlenient
      have hsame : w.found = (name :: w.seen).filter p.hasClass := by
        rw [List.filter_cons_of_neg (by simp [hclass]), hw.found]
      have hvisit := hw.visit hnew hvisitable hsame
      rwa [supertypesOf_eq_nil hclass, List.append_nil] at hvisit

theorem decides_visitLevel {w : Walk} (hw : w.Explores p roots []) :
    Decides p.Loads (visitLevel w) (Walk.Explores p roots [])
      (∃ t, p.Above roots t ∧ ¬ p.Visitable t) := by
  refine Decides.foldlM (fun _ _ _ => decides_visit) w.queue ⟨?_, hw.found, ?_, hw.visitable⟩
  · rw [List.append_nil]
    exact hw.visits
  · intro t ht
    rw [List.append_nil] at ht
    exact hw.above t ht

theorem decides_walk (fuel : Nat) {w : Walk} (hw : w.Explores p roots []) :
    Decides p.Loads (walk fuel w) (Walk.Explores p roots [])
      (∃ t, p.Above roots t ∧ ¬ p.Visitable t) := by
  induction fuel generalizing w with
  | zero => exact .pure hw
  | succ fuel ih =>
    exact .ite (fun _ => .pure hw) fun _ => (decides_visitLevel hw).bind fun w' hw' => ih hw'

/-! ### The end of a walk -/

namespace Walk

/-- How many of the names were not visited. -/
def unseen (names : List String) (w : Walk) : Nat :=
  (names.filter fun name => ⟨name⟩ ∉ w.seen).length

/-- The fuel suffices for the walk: every level but the last one has a class to find. -/
def Ends (names : List String) (fuel : Nat) (w : Walk) : Prop :=
  w.queue = [] ∨ w.unseen names < fuel

/-- What is visited stays visited, and only a class that is found adds to the next level. -/
structure Shrinks (names : List String) (w w' : Walk) : Prop where
  unseen : w'.unseen names ≤ w.unseen names
  queue : w'.queue = w.queue ∨ w'.unseen names < w.unseen names

variable {names : List String} {w w' w'' : Walk} {name : TypeName}

theorem Shrinks.refl (names : List String) (w : Walk) : w.Shrinks names w :=
  ⟨Nat.le_refl _, .inl rfl⟩

theorem Shrinks.trans (h : w.Shrinks names w') (h' : w'.Shrinks names w'') :
    w.Shrinks names w'' := by
  refine ⟨h'.unseen.trans h.unseen, ?_⟩
  obtain hqueue | hlt := h.queue
  · exact h'.queue.imp (fun hqueue' => hqueue'.trans hqueue) fun hlt' => hlt'.trans_le h.unseen
  · exact .inr (h'.unseen.trans_lt hlt)

theorem unseen_mark (hseen : w'.seen = name :: w.seen) : w'.unseen names =
    ((names.filter fun other => ⟨other⟩ ∉ w.seen).filter fun other => ⟨other⟩ ≠ name).length := by
  rw [unseen, hseen, List.filter_filter]
  simp only [List.mem_cons, not_or, Bool.decide_and]

theorem unseen_mark_le (hseen : w'.seen = name :: w.seen) : w'.unseen names ≤ w.unseen names := by
  rw [unseen_mark hseen]
  exact List.length_filter_le _ _

/-- Visiting one of the names for the first time. -/
theorem unseen_mark_lt (hseen : w'.seen = name :: w.seen) (hname : name.text ∈ names)
    (hnew : name ∉ w.seen) : w'.unseen names < w.unseen names := by
  rw [unseen_mark hseen, unseen, List.length_filter_lt_length_iff_exists]
  exact ⟨name.text, List.mem_filter.mpr ⟨hname, by simpa using hnew⟩, by simp⟩

end Walk

variable {names : List String}

theorem shrinks_visit (hnames : p.Lists names) (w : Walk) (name : TypeName) :
    Within p.Loads (visit w name) (w.Shrinks names) := by
  refine .ite (fun _ => .pure (.refl names w)) fun hnew => ?_
  refine (within_find name.text).bind fun found hfound => ?_
  cases found with
  | some unit =>
    have hname : name.text ∈ names := hnames name.text unit hfound
    have hnew : name ∉ w.seen := by simpa using hnew
    exact (Within.lift fun _ => id).bind fun supertypes _ =>
      .pure ⟨Walk.unseen_mark_le rfl, .inr (Walk.unseen_mark_lt rfl hname hnew)⟩
  | none =>
    exact Within.get.bind fun _ _ => .ite (fun _ => .throw) fun _ =>
      .pure ⟨Walk.unseen_mark_le rfl, .inl rfl⟩

theorem shrinks_visitLevel (hnames : p.Lists names) (w : Walk) :
    Within p.Loads (visitLevel w) (Walk.Shrinks names { w with queue := [] }) := by
  refine Within.foldlM (R := fun _ w' => Walk.Shrinks names { w with queue := [] } w')
    (fun _ w' name _ hw' => ?_) [] (.refl names _)
  exact (shrinks_visit hnames w' name).mono fun _ h => hw'.trans h

/-- After a level the rest of the fuel suffices. -/
theorem ends_visitLevel (hnames : p.Lists names) {fuel : Nat} {w : Walk}
    (hqueue : w.queue.isEmpty = false) (h : w.Ends names (fuel + 1)) :
    Within p.Loads (visitLevel w) (Walk.Ends names fuel) := by
  refine (shrinks_visitLevel hnames w).mono fun w' hw' => ?_
  have hunseen : w.unseen names < fuel + 1 :=
    h.resolve_left fun hnil => by rw [hnil] at hqueue; cases hqueue
  obtain hempty | hlt := hw'.queue
  · exact .inl hempty
  · exact .inr (hlt.trans_le (Nat.le_of_lt_succ hunseen))

theorem Lists.of_loads (h : p.Lists names) (hloads : p.Loads p') : p'.Lists names :=
  fun name unit hlookup => h name unit (hloads.lookup name ▸ hlookup)

/-- No class is left in the queue of a walk that has enough fuel. -/
theorem within_walk_ends (hnames : p.Lists names) {fuel : Nat} {w : Walk} (h : w.Ends names fuel) :
    Within p.Loads (walk fuel w) fun w' => w'.queue = [] := by
  induction fuel generalizing w with
  | zero => exact .pure (h.resolve_right (Nat.not_lt_zero _))
  | succ fuel ih =>
    refine .ite (fun hempty => .pure (List.isEmpty_iff.mp hempty)) fun hqueue => ?_
    exact (ends_visitLevel hnames (by simpa using hqueue) h).bind fun w' hw' => ih hw'

/-- The count of a pool is fuel enough. -/
theorem ends_initial {n : Nat} (hcount : names.length ≤ n) (roots : List TypeName) :
    Walk.Ends names (n + 1) { queue := roots } :=
  .inr (((List.length_filter_le _ _).trans hcount).trans_lt (Nat.lt_succ_self n))

/-- **A walk finds the hierarchy, or fails because of a class that cannot be visited.** -/
theorem decides_hierarchyOf (roots : List TypeName) :
    Decides p.Loads (hierarchyOf roots)
      (fun order => p.IsHierarchy roots order ∧ ∀ t, p.Above roots t → p.Visitable t)
      (∃ t, p.Above roots t ∧ ¬ p.Visitable t) := by
  refine Decides.get.bind fun q hq => ?_
  obtain ⟨names, hcount, hnames⟩ := q.exists_names
  have hnames : p.Lists names := fun name unit h => hnames name unit (hq.lookup name ▸ h)
  refine ((decides_walk _ (.initial p roots)).and
    (within_walk_ends hnames (ends_initial hcount roots))).bind fun w hw => ?_
  exact .pure (hw.1.isHierarchy hw.2)

/-! ## Members -/

/-- All classes of the pool can be read. -/
def Readable (p : ClassPool) : Prop :=
  ∀ name unit, p.lookup name = .ok (some unit) → unit.Readable

theorem Readable.withUnit (hp : p.Readable) {unit : ClassUnit} (hunit : unit.Readable) :
    (p.withUnit unit).Readable := by
  intro name found hlookup
  by_cases hname : name = unit.name.text
  · subst hname
    rw [lookup_withUnit_self] at hlookup
    exact Option.some.inj (Except.ok.inj hlookup) ▸ hunit
  · rw [lookup_withUnit_of_ne hname] at hlookup
    exact hp name found hlookup

/-- The first method of a name and descriptor that a class declares. -/
def declaredMethod (p : ClassPool) (name descriptor : String) (t : TypeName) : Option MethodSig :=
  match p.lookup t.text with
  | .ok (some unit) => (unit.method? name descriptor).toOption.join
  | _ => none

/-- The first field of a name that a class declares. -/
def declaredField (p : ClassPool) (name : String) (t : TypeName) : Option FieldSig :=
  match p.lookup t.text with
  | .ok (some unit) => (unit.field? name).toOption.join
  | _ => none

theorem find?_addSignature (methods : List MethodSig) (m : MethodSig) (descriptor : String) :
    (addSignature methods m).find? (·.descriptor == descriptor) =
      (methods.find? (·.descriptor == descriptor)).or
        ([m].find? (·.descriptor == descriptor)) := by
  unfold addSignature
  split_ifs with hany
  · obtain ⟨first, hfirst, hsame⟩ := List.any_eq_true.mp hany
    by_cases hm : m.descriptor = descriptor
    · have hsome : (methods.find? (·.descriptor == descriptor)).isSome = true :=
        List.find?_isSome.mpr ⟨first, hfirst, hm ▸ hsame⟩
      rw [Option.or_of_isSome hsome]
    · rw [List.find?_singleton, if_neg (by simpa using hm), Option.or_none]
  · rw [List.find?_append]

/-- The first method of a descriptor stays the one. -/
theorem find?_foldl_addSignature (methods more : List MethodSig) (descriptor : String) :
    (more.foldl addSignature methods).find? (·.descriptor == descriptor) =
      (methods.find? (·.descriptor == descriptor)).or
        (more.find? (·.descriptor == descriptor)) := by
  induction more generalizing methods with
  | nil => rw [List.foldl_nil, List.find?_nil, Option.or_none]
  | cons m more ih =>
    rw [List.foldl_cons, ih, find?_addSignature, Option.or_assoc, ← List.find?_append,
      List.singleton_append]

theorem nodup_foldl_addSignature {methods : List MethodSig} (more : List MethodSig)
    (h : (methods.map MethodSig.descriptor).Nodup) :
    ((more.foldl addSignature methods).map MethodSig.descriptor).Nodup := by
  induction more generalizing methods with
  | nil => exact h
  | cons m more ih =>
    refine ih ?_
    unfold addSignature
    split_ifs with hany
    · exact h
    · rw [List.map_append, List.map_singleton, ← List.concat_eq_append]
      refine List.Nodup.concat (fun hmem => hany ?_) h
      obtain ⟨first, hfirst, hsame⟩ := List.mem_map.mp hmem
      exact List.any_eq_true.mpr ⟨first, hfirst, beq_iff_eq.mpr hsame⟩

/-- The methods of a name are those of the first classes that declare their descriptors. -/
structure Collects (p : ClassPool) (name : String) (order : List TypeName)
    (methods : List MethodSig) : Prop where
  nodup : (methods.map MethodSig.descriptor).Nodup
  first : ∀ descriptor, methods.find? (·.descriptor == descriptor) =
    order.findSome? (p.declaredMethod name descriptor)

theorem Collects.add {name : String} {order : List TypeName} {found methods : List MethodSig}
    {t : TypeName} {unit : ClassUnit} (h : p.Collects name order found)
    (hunit : p.lookup t.text = .ok (some unit)) (hmethods : unit.methods = .ok methods) :
    p.Collects name (order ++ [t])
      ((methods.filter (·.name == name)).foldl addSignature found) where
  nodup := nodup_foldl_addSignature _ h.nodup
  first descriptor := by
    have hdeclared : p.declaredMethod name descriptor t =
        (methods.filter (·.name == name)).find? (·.descriptor == descriptor) := by
      rw [declaredMethod, hunit]
      dsimp only
      rw [ClassUnit.method?, hmethods, List.find?_filter]
      simp only [Bool.decide_and, Bool.decide_eq_true]
      rfl
    rw [find?_foldl_addSignature, h.first, List.findSome?_append, List.findSome?_singleton,
      hdeclared]

/-- A class that is there is found. -/
theorem decides_getUnit_of_hasClass {t : TypeName} (h : p.hasClass t = true) :
    Decides p.Loads (getUnit t.text) (fun unit => p.lookup t.text = .ok (some unit)) False := by
  obtain ⟨unit, hunit⟩ := hasClass_iff.mp h
  exact (decides_getUnit t.text).mono (fun _ => id) fun hnone => hnone unit hunit

theorem decides_collect (hreadable : p.Readable) (name : String) {order : List TypeName}
    (horder : ∀ t ∈ order, p.hasClass t = true) :
    Decides p.Loads (order.foldlM (fun found t => do
      let methods ← lift (← getUnit t.text).methods
      return (methods.filter (·.name == name)).foldl addSignature found) [])
      (p.Collects name order) False := by
  have hstart : p.Collects name [] [] := ⟨List.nodup_nil, fun _ => rfl⟩
  refine (Decides.foldlM (R := fun rest found => ∃ done, order = done ++ rest ∧
    p.Collects name done found) ?_ order ⟨[], rfl, hstart⟩).mono ?_ id
  · rintro t rest found ⟨done, rfl, hfound⟩
    refine (decides_getUnit_of_hasClass (horder t (by simp))).bind fun unit hunit => ?_
    obtain ⟨methods, hmethods⟩ := (hreadable _ unit hunit).methods
    rw [hmethods]
    exact .pure ⟨done ++ [t], by simp, hfound.add hunit hmethods⟩
  · rintro methods ⟨done, rfl, hmethods⟩
    rwa [List.append_nil]

theorem decides_fieldIn (hreadable : p.Readable) (name : String) {order : List TypeName}
    (horder : ∀ t ∈ order, p.hasClass t = true) :
    Decides p.Loads (fieldIn name order)
      (fun found => found = order.findSome? (p.declaredField name)) False := by
  induction order with
  | nil => exact .pure rfl
  | cons t order ih =>
    refine (decides_getUnit_of_hasClass (horder t List.mem_cons_self)).bind fun unit hunit => ?_
    obtain ⟨fields, hfields⟩ := (hreadable _ unit hunit).fields
    have hfield : unit.field? name = .ok (fields.find? (·.name == name)) := by
      rw [ClassUnit.field?, hfields]
      rfl
    have hdeclared : p.declaredField name t = fields.find? (·.name == name) := by
      rw [declaredField, hunit]
      dsimp only
      rw [hfield]
      rfl
    rw [hfield]
    cases hfound : fields.find? (·.name == name) with
    | some f =>
      refine .pure ?_
      rw [List.findSome?_cons, hdeclared, hfound]
    | none =>
      have hrest := ih fun t ht => horder t (List.mem_cons_of_mem _ ht)
      rw [List.findSome?_cons, hdeclared, hfound]
      exact hrest

/-! ## Runs -/

/-- A hierarchy is found unless a class above the roots cannot be visited. -/
theorem hierarchyOf_ok_iff (roots : List TypeName) :
    (∃ order, (p.run (hierarchyOf roots)).1 = .ok order) ↔ ∀ t, p.Above roots t → p.Visitable t := by
  have hdecides := decides_hierarchyOf (p := p) roots
  constructor
  · rintro ⟨order, hrun⟩
    exact (hdecides.of_ok (refl_of Loads p) (Prod.ext hrun rfl)).2.2
  · intro hvisitable
    obtain ⟨order, p', hrun, -⟩ := hdecides.exists_ok (refl_of Loads p)
      fun ⟨t, habove, hnot⟩ => hnot (hvisitable t habove)
    exact ⟨order, congrArg Prod.fst hrun⟩

theorem Readable.visitable_iff (hreadable : p.Readable) (t : TypeName) :
    p.Visitable t ↔
      if p.validate then p.hasClass t = true else ∃ found, p.lookup t.text = .ok found := by
  rw [Visitable, hasClass]
  rcases hlookup : p.lookup t.text with e | _ | unit
  · simp
  · cases p.validate <;> simp
  · simp [(hreadable _ unit hlookup).supertypes]

/-! ### A class below itself -/

namespace CyclicNames

/-- `A extends B implements C, Missing`. -/
def a : ClassUnit where
  name := ⟨"demo.A"⟩
  file := {
    major := 52, flags := 0x21, thisClass := 2, superClass := 4, interfaces := [6, 8]
    pool := .pushAll .empty [.utf8 "demo/A", .classRef 1, .utf8 "demo/B", .classRef 3,
      .utf8 "demo/C", .classRef 5, .utf8 "demo/Missing", .classRef 7] }

/-- `B extends A`, with a method. -/
def b : ClassUnit where
  name := ⟨"demo.B"⟩
  file := {
    major := 52, flags := 0x21, thisClass := 2, superClass := 4
    pool := .pushAll .empty [.utf8 "demo/B", .classRef 1, .utf8 "demo/A", .classRef 3,
      .utf8 "run", .utf8 "()V"]
    methods := [{ flags := 1, name := 5, descriptor := 6 }] }

/-- `C`, with the same method and another one of its name. -/
def c : ClassUnit where
  name := ⟨"demo.C"⟩
  file := {
    major := 52, flags := 0x601, thisClass := 2, superClass := 4
    pool := .pushAll .empty [.utf8 "demo/C", .classRef 1, .utf8 "java/lang/Object", .classRef 3,
      .utf8 "run", .utf8 "()V", .utf8 "(I)V"]
    methods := [{ flags := 0x401, name := 5, descriptor := 6 },
      { flags := 0x401, name := 5, descriptor := 7 }] }

def pool : ClassPool := (({ major := 52 } : ClassPool).withUnit c |>.withUnit b).withUnit a

def start : List TypeName := [b.name, a.name, b.name]

theorem readable_a : a.Readable := ⟨⟨_, rfl⟩, ⟨_, rfl⟩, ⟨_, rfl⟩⟩

theorem readable_pool : pool.Readable := by
  have hb : b.Readable := ⟨⟨_, rfl⟩, ⟨_, rfl⟩, ⟨_, rfl⟩⟩
  have hc : c.Readable := ⟨⟨_, rfl⟩, ⟨_, rfl⟩, ⟨_, rfl⟩⟩
  refine .withUnit (.withUnit (.withUnit (fun name unit hlookup => ?_) hc) hb) readable_a
  rw [lookup, cached?_of_empty rfl] at hlookup
  cases hlookup

theorem lookup_a : pool.lookup "demo.A" = .ok (some a) := lookup_withUnit_self

theorem lookup_b : pool.lookup "demo.B" = .ok (some b) :=
  (lookup_withUnit_of_ne (by decide)).trans lookup_withUnit_self

theorem lookup_of_ne {name : String} (ha : name ≠ "demo.A") (hb : name ≠ "demo.B")
    (hc : name ≠ "demo.C") : pool.lookup name = .ok none := by
  rw [pool, lookup_withUnit_of_ne ha, lookup_withUnit_of_ne hb, lookup_withUnit_of_ne hc, lookup,
    cached?_of_empty rfl]
  rfl

theorem exists_lookup (name : String) : ∃ found, pool.lookup name = .ok found := by
  rw [lookup]
  cases pool.cached? name with
  | some unit => exact ⟨_, rfl⟩
  | none => exact ⟨none, rfl⟩

end CyclicNames

/-- **Hierarchies are complete and in order.** A lenient pool finds a hierarchy unless a class above
the roots cannot be loaded, and a pool that validates unless one is missing or cannot be loaded.
What is found are all classes above the roots, each once and the nearest ones first. Of the methods
of a name there is one for each descriptor that these classes declare, the first one, and the field
of a name is the first one, too. -/
theorem hierarchy_in_order (hreadable : p.Readable) (roots : List TypeName) :
    (p.validate = false → ((∃ order, (p.run (hierarchyOf roots)).1 = .ok order) ↔
      ∀ t, p.Above roots t → ∃ found, p.lookup t.text = .ok found)) ∧
    (p.validate = true → ((∃ order, (p.run (hierarchyOf roots)).1 = .ok order) ↔
      ∀ t, p.Above roots t → p.hasClass t = true)) ∧
    ∀ order, (p.run (hierarchyOf roots)).1 = .ok order →
      p.IsHierarchy roots order ∧ ∀ name,
        (∃ methods, (p.run (collectMethods roots name)).1 = .ok methods ∧
          p.Collects name order methods) ∧
        (p.run (findFieldIn roots name)).1 = .ok (order.findSome? (p.declaredField name)) := by
  refine ⟨fun hlenient => ?_, fun hvalidate => ?_, fun order hrun => ?_⟩
  · simp only [hierarchyOf_ok_iff, hreadable.visitable_iff, hlenient, Bool.false_eq_true, if_false]
  · simp only [hierarchyOf_ok_iff, hreadable.visitable_iff, hvalidate, if_true]
  rcases hwalk : (hierarchyOf roots).run.run p with ⟨result, p'⟩
  obtain rfl : result = .ok order := (congrArg Prod.fst hwalk).symm.trans hrun
  obtain ⟨hloads, hhierarchy, -⟩ := (decides_hierarchyOf roots).of_ok (refl_of Loads p) hwalk
  have hclass : ∀ t ∈ order, p.hasClass t = true := fun t ht => ((hhierarchy.mem_iff t).mp ht).1
  refine ⟨hhierarchy, fun name => ⟨?_, ?_⟩⟩
  · obtain ⟨methods, p'', hcollect, -, hcollects⟩ :=
      (decides_collect hreadable name hclass).exists_ok hloads not_false
    exact ⟨methods, congrArg Prod.fst ((run_bind_of_ok hwalk).trans hcollect), hcollects⟩
  · obtain ⟨found, p'', hfield, -, rfl⟩ :=
      (decides_fieldIn hreadable name hclass).exists_ok hloads not_false
    exact congrArg Prod.fst ((run_bind_of_ok hwalk).trans hfield)

theorem hierarchy_in_order_cyclic :
    CyclicNames.pool.Readable ∧ ∃ order,
      (CyclicNames.pool.run (hierarchyOf CyclicNames.start)).1 = .ok order ∧
      CyclicNames.pool.IsHierarchy CyclicNames.start order ∧
      (∃ methods, (CyclicNames.pool.run (collectMethods CyclicNames.start "run")).1 = .ok methods ∧
        CyclicNames.pool.Collects "run" order methods) ∧
      (CyclicNames.pool.run (findFieldIn CyclicNames.start "name")).1 =
        .ok (order.findSome? (CyclicNames.pool.declaredField "name")) := by
  obtain ⟨hlenient, -, hfound⟩ := hierarchy_in_order CyclicNames.readable_pool CyclicNames.start
  obtain ⟨order, hrun⟩ := (hlenient rfl).mpr fun t _ => CyclicNames.exists_lookup t.text
  obtain ⟨hhierarchy, hmembers⟩ := hfound order hrun
  exact ⟨CyclicNames.readable_pool, order, hrun, hhierarchy, (hmembers "run").1,
    (hmembers "name").2⟩

/-! ### A class that cannot be loaded -/

/-- A layer that has a byte in the place of a class file. -/
def brokenLayer : Layer := .memory "mem" [("demo.B", [0])]

/-- `A` extends `B`, which cannot be loaded. -/
def brokenBase : ClassPool :=
  ({ layers := [brokenLayer], major := 52 } : ClassPool).withUnit CyclicNames.a

/-- A lenient pool does without a class that is missing, but not without one that is broken. -/
theorem hierarchyOf_brokenBase :
    brokenBase.Readable ∧ brokenBase.validate = false ∧
    brokenBase.hasClass CyclicNames.a.name = true ∧
    ¬ ∃ order, (brokenBase.run (hierarchyOf [CyclicNames.a.name])).1 = .ok order ∧
      CyclicNames.a.name ∈ order := by
  have ha : brokenBase.lookup "demo.A" = .ok (some CyclicNames.a) := lookup_withUnit_self
  have hb : brokenBase.lookup "demo.B" = search "demo.B" [brokenLayer] := by
    rw [brokenBase, lookup_withUnit_of_ne (by decide), lookup, cached?_of_empty rfl]
  refine ⟨.withUnit (fun name unit hlookup => ?_) CyclicNames.readable_a, rfl,
    hasClass_iff.mpr ⟨_, ha⟩, ?_⟩
  · rw [lookup, cached?_of_empty rfl] at hlookup
    by_cases hname : name = "demo.B"
    · subst hname
      cases hlookup
    · have hfind : brokenLayer.find name = .ok none := by
        rw [brokenLayer, Layer.find, List.lookup_cons, beq_eq_false_iff_ne.mpr hname]
        rfl
      have hnone : search name [brokenLayer] = .ok none := by
        rw [search, findIn, hfind]
        rfl
      cases hnone.symm.trans hlookup
  · rintro ⟨order, hrun, -⟩
    have hextends : brokenBase.Extends ⟨"demo.A"⟩ ⟨"demo.B"⟩ :=
      ⟨CyclicNames.a, _, ha, rfl, List.mem_cons_self⟩
    have hvisitable := (hierarchyOf_ok_iff _).mp ⟨order, hrun⟩ ⟨"demo.B"⟩
      ⟨⟨"demo.A"⟩, List.mem_cons_self, .single hextends⟩
    rw [Visitable, hb] at hvisitable
    exact hvisitable

end ClassPool

end ClassSynth
