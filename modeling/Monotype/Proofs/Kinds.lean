import Mathlib.Data.List.Induction

namespace Monotype
namespace Kinds

/-!
# The first value of each kind

`List.eraseDupsBy` walks along a list and keeps a value unless one of its kind has
been kept before.  The lemmas here follow the list from its end, one value at a
time, because that is how values arrive.
-/

variable {A B : Type} (same : A -> A -> Bool)

theorem loop_concat (values kept : List A) (last : A) :
    List.eraseDupsBy.loop same (values ++ [last]) kept =
      if (List.eraseDupsBy.loop same values kept).any (same last)
      then List.eraseDupsBy.loop same values kept
      else List.eraseDupsBy.loop same values kept ++ [last] := by
  induction values generalizing kept with
  | nil =>
      cases known : kept.any (same last) <;> simp [List.eraseDupsBy.loop, known]
  | cons value rest ih =>
      rw [List.cons_append, List.eraseDupsBy.loop, List.eraseDupsBy.loop]
      cases kept.any (same value) with
      | true => exact ih kept
      | false => exact ih (value :: kept)

/-- A last value is kept exactly if no earlier value of its kind has been kept. -/
theorem eraseDupsBy_concat (values : List A) (last : A) :
    (values ++ [last]).eraseDupsBy same =
      if (values.eraseDupsBy same).any (same last) then values.eraseDupsBy same
      else values.eraseDupsBy same ++ [last] :=
  loop_concat same values [] last

theorem mem_of_mem_eraseDupsBy (values : List A) (first : A)
    (kept : first ∈ values.eraseDupsBy same) : first ∈ values := by
  induction values using List.reverseRecOn with
  | nil => exact kept
  | append_singleton values last ih =>
      rw [eraseDupsBy_concat] at kept
      split at kept
      · exact List.mem_append_left _ (ih kept)
      · rcases List.mem_append.mp kept with earlier | atLast
        · exact List.mem_append_left _ (ih earlier)
        · exact List.mem_append_right _ atLast

theorem exists_mem_eraseDupsBy (refl : forall value, same value value = true) (values : List A)
    (value : A) (member : value ∈ values) :
    exists first, first ∈ values.eraseDupsBy same ∧ same value first = true := by
  induction values using List.reverseRecOn with
  | nil => cases member
  | append_singleton values last ih =>
      rw [eraseDupsBy_concat]
      rcases List.mem_append.mp member with earlier | atLast
      · rcases ih earlier with ⟨first, kept, alike⟩
        refine ⟨first, ?_, alike⟩
        split
        · exact kept
        · exact List.mem_append_left _ kept
      · rw [List.mem_singleton] at atLast
        subst value
        split
        · next known => exact List.any_eq_true.mp known
        · exact ⟨last, List.mem_append_right _ List.mem_cons_self, refl last⟩

theorem pairwise_eraseDupsBy (values : List A) :
    (values.eraseDupsBy same).Pairwise (fun earlier later => same later earlier = false) := by
  induction values using List.reverseRecOn with
  | nil => exact List.Pairwise.nil
  | append_singleton values last ih =>
      rw [eraseDupsBy_concat]
      split
      · exact ih
      · next unknown =>
          rw [List.any_eq_true] at unknown
          apply List.pairwise_append.mpr
          refine ⟨ih, List.pairwise_singleton _ _, ?_⟩
          intro earlier kept later atLast
          rw [List.mem_singleton] at atLast
          subst later
          apply Bool.eq_false_iff.mpr
          intro alike
          exact unknown ⟨earlier, kept, alike⟩

theorem nodup_eraseDups [BEq A] [LawfulBEq A] (values : List A) : values.eraseDups.Nodup := by
  refine List.Pairwise.imp ?_ (pairwise_eraseDupsBy (· == ·) values)
  intro earlier later different same
  subst later
  simp at different

theorem eraseDups_concat [BEq A] [LawfulBEq A] (values : List A) (last : A) :
    (values ++ [last]).eraseDups =
      if last ∈ values.eraseDups then values.eraseDups else values.eraseDups ++ [last] := by
  rw [List.eraseDups, eraseDupsBy_concat]
  refine if_congr ?_ rfl rfl
  rw [List.any_beq, List.elem_iff]
  exact Iff.rfl

/-- The first occurrences among the values of some property are the first occurrences with this property. -/
theorem eraseDups_filter [BEq A] [LawfulBEq A] (wanted : A -> Bool) (values : List A) :
    (values.filter wanted).eraseDups = values.eraseDups.filter wanted := by
  induction values using List.reverseRecOn with
  | nil => rfl
  | append_singleton values last ih =>
      rw [List.filter_append, eraseDups_concat, apply_ite (List.filter wanted), List.filter_append]
      by_cases isWanted : wanted last = true
      · rw [List.filter_cons_of_pos isWanted, List.filter_nil, eraseDups_concat, ih]
        simp only [List.mem_filter, isWanted, and_true]
      · rw [List.filter_cons_of_neg isWanted, List.filter_nil, List.append_nil, List.append_nil, ih, ite_self]

/-- What is kept stays kept when more values follow. -/
theorem prefix_eraseDupsBy (values more : List A) :
    values.eraseDupsBy same <+: (values ++ more).eraseDupsBy same := by
  induction more using List.reverseRecOn with
  | nil => exact ⟨[], by rw [List.append_nil, List.append_nil]⟩
  | append_singleton more last ih =>
      rw [← List.append_assoc, eraseDupsBy_concat]
      split
      · exact ih
      · exact ih.trans (List.prefix_append _ _)

/-- A kept value is the first of its kind. -/
theorem head?_filter_of_mem_eraseDupsBy (refl : forall value, same value value = true)
    (trans : forall a b c, same a b = true -> same b c = true -> same a c = true)
    (values : List A) (first : A) (kept : first ∈ values.eraseDupsBy same) :
    (values.filter (same first)).head? = some first := by
  induction values using List.reverseRecOn with
  | nil => cases kept
  | append_singleton values last ih =>
      rw [eraseDupsBy_concat] at kept
      rw [List.filter_append, List.head?_append]
      split at kept
      · rw [ih kept]
        rfl
      · next unknown =>
          rcases List.mem_append.mp kept with earlier | atLast
          · rw [ih earlier]
            rfl
          · rw [List.mem_singleton] at atLast
            subst first
            -- An earlier value of the kind of the last one would be of the kind of a kept value.
            have none : values.filter (same last) = [] := by
              apply List.filter_eq_nil_iff.mpr
              intro value member alike
              rcases exists_mem_eraseDupsBy same refl values value member with
                ⟨first, kept, alikeFirst⟩
              apply unknown
              apply List.any_eq_true.mpr
              exact ⟨first, kept, trans last value first alike alikeFirst⟩
            rw [none]
            simp [refl]

/-- Labels that tell kinds apart have their first occurrences where the kinds have. -/
theorem eraseDups_map [DecidableEq B] (label : A -> B) (values : List A)
    (labels : forall a, a ∈ values -> forall b, b ∈ values ->
      (same a b = true ↔ label a = label b)) :
    (values.map label).eraseDups = (values.eraseDupsBy same).map label := by
  induction values using List.reverseRecOn with
  | nil => rfl
  | append_singleton values last ih =>
      have known : ((values.eraseDupsBy same).map label).any (fun other => label last == other) =
          (values.eraseDupsBy same).any (same last) := by
        rw [List.any_map]
        apply Bool.eq_iff_iff.mpr
        simp only [List.any_eq_true, Function.comp_apply, beq_iff_eq]
        apply exists_congr
        intro first
        apply and_congr_right
        intro kept
        exact (labels last (List.mem_append_right _ List.mem_cons_self) first
          (List.mem_append_left _ (mem_of_mem_eraseDupsBy same values first kept))).symm
      have earlier := ih (fun a inA b inB =>
        labels a (List.mem_append_left _ inA) b (List.mem_append_left _ inB))
      rw [List.map_append, List.map_singleton, List.eraseDups, eraseDupsBy_concat, eraseDupsBy_concat]
      rw [List.eraseDups] at earlier
      rw [earlier, known]
      split
      · rfl
      · rw [List.map_append, List.map_singleton]

end Kinds
end Monotype
