import Mathlib.Data.List.Nodup

/-!
# The order of first arrival

A line of waiting members that is edited at both ends: members leave at the head, members that left
come back at either end, and newcomers join at the tail. The **order of first arrival** is the list
of all members that were ever in line, each where it joined first; `extend` adds to it whoever is in
line for the first time.

Nothing can be said about the order of those that came back. For those that did not, the line *is*
the order of first arrival (`filter_extend`), and so the member at the head is the first of them
(`not_ahead_of_head`). Which members count is a predicate `new`, and all that is asked of it is that
whoever comes back is not `new` any more.
-/

namespace Arrivals

variable {α : Type*} [DecidableEq α] {arrived line front mid back : List α} {a b : α}

/-- The order of first arrival once the line is `line`. -/
def extend (arrived line : List α) : List α := arrived ++ line.filter fun x ↦ x ∉ arrived

theorem mem_extend : a ∈ extend arrived line ↔ a ∈ arrived ∨ a ∈ line := by
  simp only [extend, List.mem_append, List.mem_filter, decide_eq_true_eq]
  tauto

theorem nodup_extend (harr : arrived.Nodup) (hline : line.Nodup) : (extend arrived line).Nodup := by
  refine harr.append (hline.filter _) fun x hx hx' ↦ ?_
  exact of_decide_eq_true (List.mem_filter.1 hx').2 hx

/-- **The line of the new is their order of arrival**, if it was, if only members that are not new
join at the front, and if the new ones that join at the back join for the first time. -/
theorem filter_extend {new : α → Bool} (horder : line.filter new = arrived.filter new)
    (hmid : mid.filter new = line.filter new) (hfront : ∀ x ∈ front, new x = false)
    (hback : ∀ x ∈ back, new x = true → x ∉ arrived) :
    (front ++ mid ++ back).filter new = (extend arrived (front ++ mid ++ back)).filter new := by
  have hnone : front.filter new = [] := by
    rw [List.filter_eq_nil_iff]
    exact fun x hx ↦ by simp [hfront x hx]
  have hleft : (front ++ mid ++ back).filter new = arrived.filter new ++ back.filter new := by
    rw [List.filter_append, List.filter_append, hnone, List.nil_append, hmid, horder]
  rw [hleft, extend, List.filter_append arrived, List.filter_comm, hleft, List.filter_append]
  have hold : (arrived.filter new).filter (fun x ↦ x ∉ arrived) = [] := by
    rw [List.filter_eq_nil_iff]
    intro x hx
    simp [(List.mem_filter.1 hx).1]
  have hnew : (back.filter new).filter (fun x ↦ x ∉ arrived) = back.filter new := by
    rw [List.filter_eq_self]
    intro x hx
    obtain ⟨hx, hxnew⟩ := List.mem_filter.1 hx
    exact decide_eq_true (hback x hx hxnew)
  rw [hold, hnew, List.nil_append]

omit [DecidableEq α] in
/-- If the one at the head is new, nobody new arrived before it. -/
theorem not_ahead_of_head {new : α → Bool} {rest : List α}
    (horder : (b :: rest).filter new = arrived.filter new) (hb : new b = true)
    (harr : arrived.Nodup) (hahead : [a, b].Sublist arrived) : new a = false := by
  refine eq_false_of_ne_true fun ha ↦ ?_
  have hkept : [a, b].Sublist (b :: rest.filter new) := by
    have h := hahead.filter new
    rw [← horder, List.filter_cons_of_pos hb, List.filter_cons_of_pos ha,
      List.filter_cons_of_pos hb] at h
    exact h
  have hnodup : (b :: rest.filter new).Nodup := by
    rw [← List.filter_cons_of_pos hb, horder]
    exact harr.filter _
  have hne : a ≠ b := by
    rintro rfl
    exact (List.nodup_cons.1 (hahead.nodup harr)).1 List.mem_cons_self
  cases hkept with
  | cons _ hlate => exact (List.nodup_cons.1 hnodup).1 (hlate.subset (by simp))
  | cons_cons _ _ => exact hne rfl

omit [DecidableEq α] in
/-- Who is ahead of an early arrival arrived early too. -/
theorem ahead_of_append {later : List α} (harr : (arrived ++ later).Nodup) (hb : b ∈ arrived)
    (hahead : [a, b].Sublist (arrived ++ later)) : [a, b].Sublist arrived := by
  have hlate : b ∉ later := fun h ↦ List.disjoint_of_nodup_append harr hb h
  obtain ⟨l₁, l₂, heq, h₁, h₂⟩ := List.sublist_append_iff.1 hahead
  rcases l₂ with - | ⟨x, l₂⟩
  · rw [heq, List.append_nil]
    exact h₁
  · have hlast : b ∈ x :: l₂ := by
      have h := congrArg List.getLast? heq
      rw [List.getLast?_append] at h
      refine List.mem_of_getLast? ?_
      simpa using h.symm
    exact absurd (h₂.subset hlast) hlate

end Arrivals
