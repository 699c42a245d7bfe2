import Mathlib.Algebra.BigOperators.Fin
import Mathlib.Data.ENNReal.Basic
import Mathlib.Data.Nat.SuccPred

/-!
# Weighted picks

A number `r` below the total weight of a list picks one of its members: the first whose cumulative
weight exceeds `r` (`pick`). Every member is picked by exactly as many numbers as it weighs
(`card_pick`), so a uniform `r` picks each with the probability that is its share.

Picking and removing until nothing is left arranges the list. The chance of one arrangement is a
product of shares, each taken of what was left at the time (`chance`, `chance_eq_prod`).
-/

open scoped ENNReal

namespace Weighted

variable {α : Type*} (w : α → ℕ)

/-- The total weight of a list. -/
def total (l : List α) : ℕ := (l.map w).sum

@[simp] theorem total_nil : total w [] = 0 := rfl

@[simp] theorem total_cons (a : α) (l : List α) : total w (a :: l) = w a + total w l := by
  simp [total]

theorem total_perm {l l' : List α} (h : l.Perm l') : total w l = total w l' :=
  (h.map w).sum_eq

/-- What is left weighs less by what was taken. -/
theorem total_eraseIdx : ∀ {l : List α} {k : ℕ} {a : α}, l[k]? = some a →
    total w (l.eraseIdx k) + w a = total w l
  | b :: l, 0, a, h => by
    obtain rfl : b = a := by simpa using h
    simp [add_comm]
  | b :: l, k + 1, a, h => by
    have := total_eraseIdx (l := l) (k := k) (by simpa using h)
    simp only [List.eraseIdx_cons_succ, total_cons]
    omega

/-- The position of the first member whose cumulative weight exceeds `r`. -/
def pick : List α → ℕ → ℕ
  | [], _ => 0
  | a :: l, r => if r < w a then 0 else pick l (r - w a) + 1

variable {w}

theorem pick_lt {l : List α} {r : ℕ} (hr : r < total w l) : pick w l r < l.length := by
  induction l generalizing r with
  | nil => cases hr
  | cons a l ih =>
    rw [total_cons] at hr
    rw [pick]
    split_ifs with hlt
    · exact Nat.succ_pos _
    · exact Nat.succ_lt_succ (ih (by omega))

/-- **Every member is picked by as many numbers as it weighs.** -/
theorem card_pick {l : List α} {k : ℕ} {a : α} (hk : l[k]? = some a) :
    {r ∈ Finset.range (total w l) | pick w l r = k}.card = w a := by
  induction l generalizing k with
  | nil => cases hk
  | cons b l ih =>
    cases k with
    | zero =>
      obtain rfl : b = a := by simpa using hk
      have hset : {r ∈ Finset.range (total w (b :: l)) | pick w (b :: l) r = 0} =
          Finset.range (w b) := by
        ext r
        rw [Finset.mem_filter, Finset.mem_range, Finset.mem_range, total_cons, pick]
        split_ifs with hlt
        · exact iff_of_true ⟨by omega, rfl⟩ hlt
        · exact iff_of_false (fun h ↦ h.2) hlt
      rw [hset, Finset.card_range]
    | succ k =>
      -- the numbers that go past `b` are those of the rest, moved up by its weight
      have hset : {r ∈ Finset.range (total w (b :: l)) | pick w (b :: l) r = k + 1} =
          {r ∈ Finset.range (total w l) | pick w l r = k}.map (addRightEmbedding (w b)) := by
        ext r
        rw [Finset.mem_filter, Finset.mem_range, total_cons, pick, Finset.mem_map]
        simp only [Finset.mem_filter, Finset.mem_range, addRightEmbedding_apply]
        constructor
        · rintro ⟨hr, hpick⟩
          split_ifs at hpick with hlt
          exact ⟨r - w b, ⟨by omega, by omega⟩, by omega⟩
        · rintro ⟨r', ⟨hr', hpick⟩, rfl⟩
          rw [if_neg (by omega), Nat.add_sub_cancel, hpick]
          exact ⟨by omega, rfl⟩
      rw [hset, Finset.card_map, ih (by simpa using hk)]

/-- A sum over all numbers, by what they pick. -/
theorem sum_pick (l : List α) (f : ℕ → ℝ≥0∞) :
    ∑ r ∈ Finset.range (total w l), f (pick w l r) =
      ∑ k : Fin l.length, (w (l.get k) : ℝ≥0∞) * f k := by
  have hmaps : ∀ r ∈ Finset.range (total w l), pick w l r ∈ Finset.range l.length :=
    fun r hr ↦ Finset.mem_range.2 (pick_lt (Finset.mem_range.1 hr))
  rw [← Finset.sum_fiberwise_of_maps_to hmaps, Finset.sum_range]
  refine Finset.sum_congr rfl fun k _ ↦ ?_
  have hconst : ∀ r ∈ {r ∈ Finset.range (total w l) | pick w l r = k}, f (pick w l r) = f k :=
    fun r hr ↦ by rw [(Finset.mem_filter.1 hr).2]
  rw [Finset.sum_congr rfl hconst, Finset.sum_const,
    card_pick (List.getElem?_eq_getElem k.2), nsmul_eq_mul]
  rfl

/-! ### Arrangements -/

variable (w) in
/-- The chance that members are picked in this order: a product of shares. -/
noncomputable def chance : List α → ℝ≥0∞
  | [] => 1
  | a :: p => w a / total w (a :: p) * chance p

theorem chance_eq_prod (p : List α) :
    chance w p = ∏ k : Fin p.length, (w (p.get k) : ℝ≥0∞) / total w (p.drop k) := by
  induction p with
  | nil => rfl
  | cons a p ih =>
    rw [chance, ih]
    exact (Fin.prod_univ_succ fun k : Fin (p.length + 1) ↦
      (w ((a :: p).get k) : ℝ≥0∞) / total w ((a :: p).drop k)).symm

end Weighted
