import Mathlib.Data.List.Induction

/-!
# Lists without repeats

A list that takes up each element unless one that stands for it is there already holds the first one
of each kind (`foldl_eraseDupsBy`), whatever is taken up later (`eraseDupsBy_concat`).
-/

namespace ClassSynth

variable {α : Type}

/-- Adding what no element before stands for, one element after the other, erases duplicates. -/
theorem foldl_eraseDupsBy (r : α → α → Bool) (l : List α) :
    l.foldl (fun done a => if done.any (r a) then done else done ++ [a]) [] = l.eraseDupsBy r := by
  have hloop : ∀ done : List α,
      l.foldl (fun done a => if done.any (r a) then done else done ++ [a]) done.reverse =
        List.eraseDupsBy.loop r l done := by
    induction l with
    | nil => exact fun done => rfl
    | cons a l ih =>
      intro done
      rw [List.foldl_cons, List.any_reverse, List.eraseDupsBy.loop]
      cases done.any (r a) with
      | true => exact ih done
      | false =>
        have hrest := ih (a :: done)
        rwa [List.reverse_cons] at hrest
  exact hloop []

theorem eraseDupsBy_concat (r : α → α → Bool) (l : List α) (a : α) :
    (l ++ [a]).eraseDupsBy r =
      if (l.eraseDupsBy r).any (r a) then l.eraseDupsBy r else l.eraseDupsBy r ++ [a] := by
  rw [← foldl_eraseDupsBy, List.foldl_append, foldl_eraseDupsBy]
  rfl

theorem eraseDupsBy_sublist (r : α → α → Bool) (l : List α) : (l.eraseDupsBy r).Sublist l := by
  induction l using List.reverseRecOn with
  | nil => exact .refl _
  | append_singleton l a ih =>
    rw [eraseDupsBy_concat]
    split_ifs
    · exact ih.trans (List.sublist_append_left _ _)
    · exact ih.append (.refl _)

end ClassSynth
