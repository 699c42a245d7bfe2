import Mathlib.Algebra.BigOperators.Group.Finset.Piecewise
import Mathlib.Tactic.Ring
import TaskQueue.Data.Table

/-!
# Counting by class

A tally goes through a list and counts each member against the row of its class, in a table of rows.
What a row shows in the end is the row it began with, counted up once for each member of the class
(`row_foldl`); the order of the list does not matter.

Two ways to know what such a count is: a list of keys, each listed once, counts the values of a
table it selects (`length_eq_countP`), and a list splits into its classes (`countP_eq_sum_classes`).
-/

namespace Tally

/-- A list splits into its classes. -/
theorem countP_eq_sum_classes {α β : Type*} [DecidableEq β] (cls : α → β) {keys : List β}
    (hkeys : keys.Nodup) (p : α → Bool) (l : List α) (hmem : ∀ x ∈ l, cls x ∈ keys) :
    l.countP p = (keys.map fun k ↦ l.countP fun x ↦ p x && decide (cls x = k)).sum := by
  induction l with
  | nil => simp
  | cons x l ih =>
    have hone : (keys.map fun k ↦ if p x && decide (cls x = k) then 1 else 0).sum =
        if p x then 1 else 0 := by
      rw [← List.sum_toFinset _ hkeys]
      rcases p x with - | -
      · simp
      · simp [hmem x List.mem_cons_self]
    simp only [List.countP_cons, List.sum_map_add, hone]
    rw [ih fun y hy ↦ hmem y (List.mem_cons_of_mem x hy)]

variable {κ ν : Type*} [DecidableEq κ]

/-- Keys that are listed once each, and listed exactly if their value is selected, count the values
selected. -/
theorem length_eq_countP {m : Table κ ν} {p : ν → Bool} {l : List κ} (hl : l.Nodup)
    (h : ∀ k, k ∈ l ↔ ∃ v, m.lookup k = some v ∧ p v = true) :
    l.length = m.entries.countP fun e ↦ p e.2 := by
  have hkeys : ((m.entries.filter fun e ↦ p e.2).map Sigma.fst).Nodup :=
    List.NodupKeys.sublist List.filter_sublist m.nodupKeys
  have hperm : l.Perm ((m.entries.filter fun e ↦ p e.2).map Sigma.fst) := by
    refine (List.perm_ext_iff_of_nodup hl hkeys).2 fun k ↦ ?_
    rw [h, List.mem_map]
    constructor
    · rintro ⟨v, hv, hp⟩
      exact ⟨⟨k, v⟩, List.mem_filter.2 ⟨AList.mem_lookup_iff.1 hv, hp⟩, rfl⟩
    · rintro ⟨⟨k, v⟩, he, rfl⟩
      obtain ⟨he, hp⟩ := List.mem_filter.1 he
      exact ⟨v, AList.mem_lookup_iff.2 he, hp⟩
  rw [hperm.length_eq, List.length_map, List.countP_eq_length_filter]

/-! ### Rows -/

variable {ρ α : Type*} (zero : κ → ρ)

/-- The row of a key; a key without one has the zero row. -/
def row (s : Table κ ρ) (k : κ) : ρ := (s.lookup k).getD (zero k)

theorem row_insert (s : Table κ ρ) (k k' : κ) (r : ρ) :
    row zero (s.insert k r) k' = if k' = k then r else row zero s k' := by
  rw [row, row, Table.lookup_insert_eq]
  split_ifs <;> rfl

/-- A table that is filled from a list of keys. -/
theorem lookup_foldl_insert (g : κ → ρ) (l : List κ) (s : Table κ ρ) (k : κ) :
    (l.foldl (fun s x ↦ s.insert x (g x)) s).lookup k =
      if k ∈ l then some (g k) else s.lookup k := by
  induction l generalizing s with
  | nil => rfl
  | cons x l ih =>
    rw [List.foldl_cons, ih, Table.lookup_insert_eq]
    by_cases hl : k ∈ l
    · rw [if_pos hl, if_pos (List.mem_cons_of_mem x hl)]
    · by_cases hx : k = x
      · subst hx
        rw [if_neg hl, if_pos rfl, if_pos List.mem_cons_self]
      · rw [if_neg hl, if_neg hx, if_neg (by simp [hl, hx])]

/-- Counting up one number of a row. -/
theorem iterate_count {f : ρ → ρ} {g : ℤ → ρ} (h : ∀ i, f (g i) = g (i + 1)) (n : ℕ) (i : ℤ) :
    f^[n] (g i) = g (i + n) := by
  induction n generalizing i with
  | zero => rw [Nat.cast_zero, add_zero, Function.iterate_zero_apply]
  | succ n ih =>
    rw [Function.iterate_succ_apply, h, ih]
    congr 1
    push_cast
    ring

/-- **The rows after a tally**, for a step that counts a member against the row of its class and
keeps an invariant of the table. -/
theorem row_foldl {zero} {step : Table κ ρ → α → Table κ ρ} {cls : α → Option κ} {f : ρ → ρ}
    {P : Table κ ρ → Prop} (hkeep : ∀ s x, P s → P (step s x))
    (hstep : ∀ s x k, P s →
      row zero (step s x) k = if cls x = some k then f (row zero s k) else row zero s k)
    (l : List α) {s : Table κ ρ} (hs : P s) :
    P (l.foldl step s) ∧
      ∀ k, row zero (l.foldl step s) k = f^[l.countP (cls · = some k)] (row zero s k) := by
  induction l generalizing s with
  | nil => exact ⟨hs, fun k ↦ rfl⟩
  | cons x l ih =>
    obtain ⟨hP, hrow⟩ := ih (hkeep s x hs)
    refine ⟨hP, fun k ↦ ?_⟩
    rw [List.foldl_cons, hrow, hstep s x k hs, List.countP_cons]
    by_cases hcls : cls x = some k
    · rw [if_pos hcls, if_pos (decide_eq_true hcls), Function.iterate_succ_apply]
    · rw [if_neg hcls, if_neg (by simpa using hcls), add_zero]

end Tally
