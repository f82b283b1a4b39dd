import Mathlib.Data.List.Infix
import Mathlib.Data.List.Nodup

/-!
# Visits level by level

A visit starts with a queue of roots, takes the first of the queue, and if it was not visited
before, visits it and puts what comes next to it behind the queue. `Visits` is what such a visit
keeps: what was taken and what is queued are the roots and what comes next to everything visited, in
order, and the visited are the taken ones without repeats.

Main results: what is visited before the end of a path is no farther from the roots than that end
(`Visits.reachedIn_of_prefix`), and nearer to the root if the path always takes the first neighbour
(`Visits.near`).
-/

namespace ClassSynth

variable {α : Type} {next : α → List α}

/-! ## Steps -/

/-- `StepsTo next a n b`: a path of `n` steps goes from `a` to `b`. -/
inductive StepsTo (next : α → List α) (a : α) : Nat → α → Prop
  | refl : StepsTo next a 0 a
  | step {n : Nat} {b c : α} (h : StepsTo next a n b) (hc : c ∈ next b) : StepsTo next a (n + 1) c

/-- `FirstStepsTo next a n b`: the path of `n` steps from `a` to `b` always takes the first one. -/
inductive FirstStepsTo (next : α → List α) (a : α) : Nat → α → Prop
  | refl : FirstStepsTo next a 0 a
  | step {n : Nat} {b c : α} (h : FirstStepsTo next a n b) (hc : (next b).head? = some c) :
    FirstStepsTo next a (n + 1) c

/-- A path of `n` steps goes from one of the roots to `b`. -/
def ReachedIn (next : α → List α) (roots : List α) (n : ℕ) (b : α) : Prop :=
  ∃ a ∈ roots, StepsTo next a n b

theorem ReachedIn.step {roots : List α} {n : ℕ} {b c : α} (h : ReachedIn next roots n b)
    (hc : c ∈ next b) : ReachedIn next roots (n + 1) c :=
  let ⟨a, ha, hsteps⟩ := h
  ⟨a, ha, hsteps.step hc⟩

variable [DecidableEq α]

/-! ## Lists without repeats -/

theorem eraseDups_prefix {l m : List α} (h : l <+: m) : l.eraseDups <+: m.eraseDups := by
  obtain ⟨rest, rfl⟩ := h
  exact ⟨_, List.eraseDups_append.symm⟩

theorem eraseDups_concat_of_mem {l : List α} {a : α} (h : a ∈ l) :
    (l ++ [a]).eraseDups = l.eraseDups := by
  simp [List.eraseDups_append, List.removeAll, h]

theorem eraseDups_concat_of_not_mem {l : List α} {a : α} (h : a ∉ l) :
    (l ++ [a]).eraseDups = l.eraseDups ++ [a] := by
  simp [List.eraseDups_append, List.removeAll, h, List.eraseDups_cons]

theorem nodup_eraseDups (l : List α) : l.eraseDups.Nodup := by
  induction l using List.reverseRecOn with
  | nil => exact List.nodup_nil
  | append_singleton l a ih =>
    by_cases ha : a ∈ l
    · rwa [eraseDups_concat_of_mem ha]
    · rw [eraseDups_concat_of_not_mem ha, ← List.concat_eq_append]
      exact List.Nodup.concat (fun h => ha (List.mem_eraseDups.mp h)) ih

/-! ## Visits -/

/-- The state of a visit of what can be reached from the roots. -/
def Visits (next : α → List α) (roots queue visited : List α) : Prop :=
  ∃ taken, visited = taken.eraseDups ∧ taken ++ queue = roots ++ visited.flatMap next

namespace Visits

variable {roots queue visited rest : List α} {a x : α}

theorem initial : Visits next roots roots [] := ⟨[], by simp, by simp⟩

/-- What was visited before is only taken from the queue. -/
theorem skip (h : Visits next roots (x :: rest) visited) (hx : x ∈ visited) :
    Visits next roots rest visited := by
  obtain ⟨taken, rfl, hqueue⟩ := h
  have hx : x ∈ taken := List.mem_eraseDups.mp hx
  exact ⟨taken ++ [x], (eraseDups_concat_of_mem hx).symm, by simpa using hqueue⟩

theorem visit (h : Visits next roots (x :: rest) visited) (hx : x ∉ visited) :
    Visits next roots (rest ++ next x) (visited ++ [x]) := by
  obtain ⟨taken, rfl, hqueue⟩ := h
  have hx : x ∉ taken := fun hmem => hx (List.mem_eraseDups.mpr hmem)
  refine ⟨taken ++ [x], (eraseDups_concat_of_not_mem hx).symm, ?_⟩
  have happend := congrArg (· ++ next x) hqueue
  simpa using happend

/-- The root is visited first. -/
theorem eq_root (h : Visits next [a] queue (x :: visited)) : x = a := by
  obtain ⟨taken, htaken, hqueue⟩ := h
  cases taken with
  | nil => cases htaken
  | cons first taken =>
    rw [List.eraseDups_cons] at htaken
    exact (List.cons.inj htaken).1.trans (List.cons.inj hqueue).1

/-- What was visited without `y` came into the queue no later than `y`. -/
theorem subset_of_prefix (h : Visits next roots queue visited) {pre earlier : List α} {y : α}
    (hpre : pre <+: visited) (hearlier : earlier <+: roots ++ visited.flatMap next)
    (hy : y ∈ earlier) (hnew : y ∉ pre) : pre ⊆ earlier := by
  obtain ⟨taken, htaken, hqueue⟩ := h
  have hvisitedAll : visited <+: (taken ++ queue).eraseDups :=
    htaken ▸ eraseDups_prefix (List.prefix_append taken queue)
  have hearlierAll : earlier.eraseDups <+: (taken ++ queue).eraseDups :=
    hqueue ▸ eraseDups_prefix hearlier
  obtain hshort | hlong :=
    List.prefix_or_prefix_of_prefix (hpre.trans hvisitedAll) hearlierAll
  · exact fun x hx => List.mem_eraseDups.mp (hshort.subset hx)
  · exact absurd (hlong.subset (List.mem_eraseDups.mpr hy)) hnew

/-- What is visited, while the one that comes next to `b` first is not, came before it into the
queue. -/
theorem mem_of_first (h : Visits next roots queue visited) {pre front back : List α} {b c : α}
    (hpre : pre ++ [x] <+: visited) (hvisited : visited = front ++ b :: back)
    (hfirst : (next b).head? = some c) (hc : c ∉ pre ++ [x]) :
    x ∈ roots ++ front.flatMap next := by
  obtain ⟨others, hothers⟩ := List.head?_eq_some_iff.mp hfirst
  have hearlier : roots ++ front.flatMap next ++ [c] <+: roots ++ visited.flatMap next := by
    refine ⟨others ++ back.flatMap next, ?_⟩
    rw [hvisited, List.flatMap_append, List.flatMap_cons, hothers]
    simp
  have hlast : x ∈ pre ++ [x] := by simp
  obtain hx | hx := List.mem_append.mp (h.subset_of_prefix hpre hearlier (by simp) hc hlast)
  · exact hx
  · exact absurd hlast (List.mem_singleton.mp hx ▸ hc)

/-- **What is visited before the end of a path of first neighbours is nearer to the root.** -/
theorem near (h : Visits next [a] queue visited) {n : Nat} {c : α} (hc : FirstStepsTo next a n c)
    {pre : List α} (hpre : pre ++ [x] <+: visited) (hnew : c ∉ pre ++ [x]) :
    ∃ k < n, StepsTo next a k x := by
  induction hc generalizing pre x with
  | refl =>
    obtain ⟨rest, rfl⟩ := hpre
    cases pre with
    | nil => exact absurd (List.mem_singleton.mpr h.eq_root.symm) hnew
    | cons y pre => exact absurd (List.mem_cons.mpr (.inl h.eq_root.symm)) hnew
  | @step n b c hb hfirst ih =>
    by_cases hmem : b ∈ pre ++ [x]
    · obtain ⟨front, back, hsplit, hfront⟩ := List.eq_append_cons_of_mem hmem
      obtain ⟨rest, hrest⟩ := hpre
      have hvisited : visited = front ++ b :: (back ++ rest) := by rw [← hrest, hsplit]; simp
      obtain hx | hx :=
        List.mem_append.mp (h.mem_of_first ⟨rest, hrest⟩ hvisited hfirst hnew)
      · exact ⟨0, Nat.succ_pos n, List.mem_singleton.mp hx ▸ .refl⟩
      · obtain ⟨y, hy, hnext⟩ := List.mem_flatMap.mp hx
        obtain ⟨before, after, rfl⟩ := List.append_of_mem hy
        have hbefore : before ++ [y] <+: visited :=
          ⟨after ++ b :: (back ++ rest), by rw [hvisited]; simp⟩
        have hnone : b ∉ before ++ [y] := fun hmem =>
          hfront (List.append_assoc before [y] after ▸ List.mem_append_left _ hmem)
        obtain ⟨k, hk, hsteps⟩ := ih hbefore hnone
        exact ⟨k + 1, Nat.succ_lt_succ hk, hsteps.step hnext⟩
    · obtain ⟨k, hk, hsteps⟩ := ih hpre hmem
      exact ⟨k, hk.trans (Nat.lt_succ_self n), hsteps⟩

/-- **What is visited before the end of a path is no farther from the roots.** -/
theorem reachedIn_of_prefix (h : Visits next roots queue visited) {n : ℕ} {y : α}
    (hy : ReachedIn next roots n y) {pre : List α} (hpre : pre <+: visited) (hnew : y ∉ pre) :
    ∀ x ∈ pre, ∃ k ≤ n, ReachedIn next roots k x := by
  obtain ⟨a, ha, hsteps⟩ := hy
  induction hsteps generalizing pre with
  | refl =>
    intro x hx
    exact ⟨0, le_rfl, x, h.subset_of_prefix hpre (List.prefix_append _ _) ha hnew hx, .refl⟩
  | @step n b c hb hc ih =>
    intro x hx
    by_cases hmem : b ∈ pre
    · obtain ⟨front, back, rfl, hfront⟩ := List.eq_append_cons_of_mem hmem
      have hsplit : front ++ [b] <+: visited :=
        (List.prefix_append_right_inj front |>.mpr (by simp)).trans hpre
      have hearlier : roots ++ (front ++ [b]).flatMap next <+: roots ++ visited.flatMap next :=
        (List.prefix_append_right_inj roots).mpr (hsplit.flatMap next)
      have hcearlier : c ∈ roots ++ (front ++ [b]).flatMap next := by simp [hc]
      obtain hx | hx :=
        List.mem_append.mp (h.subset_of_prefix hpre hearlier hcearlier hnew hx)
      · exact ⟨0, Nat.zero_le _, x, hx, .refl⟩
      · obtain ⟨z, hz, hnext⟩ := List.mem_flatMap.mp hx
        obtain hz | hz := List.mem_append.mp hz
        · obtain ⟨k, hk, hreached⟩ :=
            ih ((List.prefix_append front [b]).trans hsplit) hfront z hz
          exact ⟨k + 1, Nat.succ_le_succ hk, hreached.step hnext⟩
        · obtain rfl := List.mem_singleton.mp hz
          exact ⟨n + 1, le_rfl, a, ha, hb.step hnext⟩
    · obtain ⟨k, hk, hreached⟩ := ih hpre hmem x hx
      exact ⟨k, hk.trans (Nat.le_succ n), hreached⟩

theorem nodup (h : Visits next roots queue visited) : visited.Nodup := by
  obtain ⟨taken, rfl, -⟩ := h
  exact nodup_eraseDups taken

/-- What is visited first is nearest. -/
theorem pairwise_reachedIn (h : Visits next roots queue visited) :
    visited.Pairwise fun x y =>
      ∀ n, ReachedIn next roots n y → ∃ k ≤ n, ReachedIn next roots k x := by
  rw [List.pairwise_iff_getElem]
  intro i j hi hj hij n hy
  refine h.reachedIn_of_prefix hy (List.take_prefix j visited) (fun hmem => ?_) visited[i]
    (List.mem_take_iff_getElem.mpr ⟨i, by omega, rfl⟩)
  obtain ⟨k, hk, hsame⟩ := List.mem_take_iff_getElem.mp hmem
  have hkj : k = j := (List.Nodup.getElem_inj_iff h.nodup).mp hsame
  omega

/-! ### Visits that are over -/

/-- The roots and what comes next to the visited are visited, in this order. -/
theorem eq_eraseDups (h : Visits next roots [] visited) :
    visited = (roots ++ visited.flatMap next).eraseDups := by
  obtain ⟨taken, htaken, hqueue⟩ := h
  rw [List.append_nil] at hqueue
  rw [← hqueue]
  exact htaken

theorem mem_of_reachedIn (h : Visits next roots [] visited) {n : ℕ} {y : α}
    (hy : ReachedIn next roots n y) : y ∈ visited := by
  obtain ⟨a, ha, hsteps⟩ := hy
  induction hsteps with
  | refl =>
    rw [h.eq_eraseDups]
    exact List.mem_eraseDups.mpr (List.mem_append_left _ ha)
  | step _ hc ih =>
    rw [h.eq_eraseDups]
    exact List.mem_eraseDups.mpr (List.mem_append_right _ (List.mem_flatMap.mpr ⟨_, ih, hc⟩))

end Visits

end ClassSynth
