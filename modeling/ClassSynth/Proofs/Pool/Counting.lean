import ClassSynth.Pool.Basic
import ClassSynth.Proofs.Pool.Lookup

/-!
# How many classes a pool has

A class that a layer gives has the name that it was asked for, so each class file of a layer answers
for one name at most. With the classes that are kept, this bounds the names for which a pool has a
class: `ClassPool.exists_names`.
-/

namespace ClassSynth

/-! ## Layers -/

theorem FileTree.mem_of_content? {t : FileTree} {path : String} {bytes : Bytes}
    (h : t.content? path = some bytes) : bytes ∈ t.files.map (·.2) := by
  obtain ⟨place, -, h⟩ := Option.bind_eq_some_iff.mp h
  obtain ⟨before, after, hfiles, -⟩ := List.lookup_eq_some_iff.mp h
  exact List.mem_map.mpr ⟨(place, bytes), by rw [hfiles]; simp, rfl⟩

namespace Layer

/-- The bytes that one of the sources gives are among those that all sources give. -/
theorem mem_filterMap_toOption {α : Type} {give : α → Except Error Bytes} {sources : List α}
    {source : α} {bytes : Bytes} (hsource : source ∈ sources) (h : give source = .ok bytes) :
    bytes ∈ sources.filterMap fun source => (give source).toOption :=
  List.mem_filterMap.mpr ⟨source, hsource, by rw [h]; rfl⟩

/-- The class files that a layer can answer with are no more than its count. -/
theorem exists_classFiles (l : Layer) : ∃ files : List Bytes, files.length ≤ l.classCount ∧
    ∀ name bytes, l.find name = .ok (some bytes) → bytes ∈ files := by
  cases l with
  | builtin =>
    refine ⟨BuiltinClass.all.filterMap fun c => (c.toUnit >>= ClassUnit.toBytes).toOption,
      List.length_filterMap_le _ _, fun name bytes h => ?_⟩
    dsimp only [find] at h
    split at h
    · next c hc =>
      obtain ⟨unit, hunit, h⟩ := Checked.bind_eq_ok.mp h
      obtain ⟨written, hwritten, h⟩ := Checked.bind_eq_ok.mp h
      obtain rfl := Option.some.inj (Except.ok.inj h)
      have hc : c ∈ BuiltinClass.all := by
        unfold BuiltinClass.find? at hc
        exact List.mem_of_find?_eq_some hc
      exact mem_filterMap_toOption hc (Checked.bind_eq_ok.mpr ⟨unit, hunit, hwritten⟩)
    · cases h
  | memory name classes =>
    refine ⟨classes.map (·.2), (List.length_map _).le, fun name bytes h => ?_⟩
    obtain ⟨before, after, rfl, -⟩ := List.lookup_eq_some_iff.mp (Except.ok.inj h)
    simp
  | directory path tree =>
    exact ⟨tree.files.map (·.2), (List.length_map _).le, fun name bytes h =>
      FileTree.mem_of_content? (Except.ok.inj h)⟩
  | archive path contents =>
    obtain _ | _ | a := contents
    · exact ⟨[], Nat.zero_le _, fun name bytes h => nomatch Except.ok.inj h⟩
    · exact ⟨[], Nat.zero_le _, fun name bytes h => nomatch h⟩
    · refine ⟨a.files.filterMap fun f => (a.content f).toOption, List.length_filterMap_le _ _,
        fun name bytes h => ?_⟩
      change a.read (classFilePath name) = _ at h
      unfold Archive.read at h
      cases hf : a.file? (classFilePath name) with
      | none => rw [hf] at h; cases h
      | some f =>
        rw [hf] at h
        obtain ⟨content, hcontent, h⟩ := Checked.bind_eq_ok.mp h
        obtain rfl := Option.some.inj (Except.ok.inj h)
        exact mem_filterMap_toOption (List.mem_reverse.mp (List.mem_of_find?_eq_some hf)) hcontent
  | sources s =>
    dsimp only [find, SourceDirectories.find, classCount]
    cases houtput : s.compiler s.request with
    | error e =>
      refine ⟨[], Nat.zero_le _, fun name bytes h => ?_⟩
      split_ifs at h
      · cases h
      · cases h
    | ok output =>
      refine ⟨output.files.map (·.2), (List.length_map _).le, fun name bytes h => ?_⟩
      split_ifs at h
      · dsimp only [bind, Except.bind] at h
        split at h
        · next found hfound =>
          obtain rfl := Option.some.inj (Except.ok.inj h)
          exact FileTree.mem_of_content? hfound
        · cases h
      · cases h
  | model m major =>
    refine ⟨m.types.filterMap fun d => (d.toStub major >>= ClassUnit.toBytes).toOption,
      List.length_filterMap_le _ _, fun name bytes h => ?_⟩
    dsimp only [find] at h
    split at h
    · next d hd =>
      obtain ⟨unit, hunit, h⟩ := Checked.bind_eq_ok.mp h
      obtain ⟨written, hwritten, h⟩ := Checked.bind_eq_ok.mp h
      obtain rfl := Option.some.inj (Except.ok.inj h)
      exact mem_filterMap_toOption (List.mem_of_find?_eq_some hd)
        (Checked.bind_eq_ok.mpr ⟨unit, hunit, hwritten⟩)
    · cases h

/-- The names for which a layer has a class are no more than its count. -/
theorem exists_names (l : Layer) : ∃ names : List String, names.length ≤ l.classCount ∧
    ∀ name unit, ClassPool.findIn l name = .ok (some unit) → name ∈ names := by
  obtain ⟨files, hlength, hfiles⟩ := l.exists_classFiles
  refine ⟨files.filterMap fun bytes => (ClassUnit.ofBytes bytes).toOption.map (·.name.text),
    (List.length_filterMap_le _ _).trans hlength, fun name unit h => ?_⟩
  obtain ⟨bytes, hbytes, h⟩ := Checked.bind_eq_ok.mp h
  cases bytes with
  | none => cases h
  | some bytes =>
    obtain ⟨_, hlayer, -⟩ := Checked.bind_eq_ok.mp h
    obtain ⟨raw, hraw, hlayer⟩ := Checked.bind_eq_ok.mp hlayer
    split_ifs at hlayer with hname
    refine List.mem_filterMap.mpr ⟨bytes, hfiles name bytes hbytes, ?_⟩
    rw [hraw]
    exact congrArg some (beq_iff_eq.mp hname)

end Layer

/-! ## Pools -/

/-- The keys of a map are no more than its size. -/
theorem exists_keys {α β : Type} [BEq α] [LawfulBEq α] [Hashable α] (m : Std.ExtHashMap α β) :
    ∃ keys : List α, keys.length = m.size ∧ ∀ key ∈ m, key ∈ keys := by
  induction hsize : m.size generalizing m with
  | zero =>
    have hempty : m = ∅ := Std.ExtHashMap.eq_empty_iff_size_eq_zero.mpr hsize
    exact ⟨[], rfl, fun key hkey => absurd hkey (hempty ▸ Std.ExtHashMap.not_mem_empty)⟩
  | succ n ih =>
    have hnonempty : m ≠ ∅ := fun h => by rw [h, Std.ExtHashMap.size_empty] at hsize; cases hsize
    rw [ne_eq, Std.ExtHashMap.eq_empty_iff_forall_not_mem, not_forall_not] at hnonempty
    obtain ⟨key, hkey⟩ := hnonempty
    have herased : (m.erase key).size = n := by
      rw [Std.ExtHashMap.size_erase, if_pos hkey, hsize, Nat.add_sub_cancel]
    obtain ⟨keys, hlength, hkeys⟩ := ih (m.erase key) herased
    refine ⟨key :: keys, by rw [List.length_cons, hlength], fun other hother => ?_⟩
    by_cases h : key = other
    · exact h ▸ List.mem_cons_self
    · have hmem : other ∈ m.erase key := Std.ExtHashMap.mem_erase.mpr ⟨by simpa using h, hother⟩
      exact List.mem_cons_of_mem _ (hkeys other hmem)

namespace ClassPool

/-- The names for which the layers have a class are no more than their counts. -/
theorem exists_names_of_layers (layers : List Layer) : ∃ names : List String,
    names.length ≤ (layers.map Layer.classCount).foldr (· + ·) 0 ∧
      ∀ name unit, search name layers = .ok (some unit) → name ∈ names := by
  induction layers with
  | nil => exact ⟨[], Nat.le_refl 0, fun name unit h => nomatch Except.ok.inj h⟩
  | cons l rest ih =>
    obtain ⟨first, hfirst, hnames⟩ := l.exists_names
    obtain ⟨others, hothers, hrest⟩ := ih
    refine ⟨first ++ others, ?_, fun name unit h => List.mem_append.mpr ?_⟩
    · rw [List.length_append]
      exact Nat.add_le_add hfirst hothers
    · obtain ⟨found, hfound, h⟩ := Checked.bind_eq_ok.mp h
      cases found with
      | none => exact .inr (hrest name unit h)
      | some answer => exact .inl (hnames name answer hfound)

/-- The list has all names for which the pool has a class. -/
def Lists (p : ClassPool) (names : List String) : Prop :=
  ∀ name unit, p.lookup name = .ok (some unit) → name ∈ names

/-- **The names for which a pool has a class are no more than its count.** -/
theorem exists_names (p : ClassPool) :
    ∃ names : List String, names.length ≤ p.classCount ∧ p.Lists names := by
  obtain ⟨kept, hkept, hkeys⟩ := exists_keys p.cache
  obtain ⟨others, hothers, hlayers⟩ := exists_names_of_layers p.layers
  refine ⟨kept ++ others, ?_, fun name unit h => List.mem_append.mpr ?_⟩
  · rw [List.length_append, hkept]
    exact Nat.add_le_add_left hothers _
  · unfold lookup at h
    split at h
    · next found hfound =>
      exact .inl (hkeys name (Std.ExtHashMap.mem_iff_isSome_getElem?.mpr
        (Option.isSome_of_eq_some hfound)))
    · exact .inr (hlayers name unit h)

end ClassPool

end ClassSynth
