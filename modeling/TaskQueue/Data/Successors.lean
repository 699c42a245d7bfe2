import Mathlib.Data.Set.Finite.Basic
import Mathlib.Order.Interval.Finset.Defs
import Mathlib.Order.Monotone.Basic

/-!
# Walking a set from one element to the next

A function that leads from any point to the **least element of a set above it** can be used to walk
the set: start somewhere, and ask again from where it led. In an order where only finitely many
points lie between two, the walk passes over nothing and leaves nothing out
(`range_iterate_eq`): what it visits are the elements of the set above the start, each of them once
and in order.
-/

namespace Successors

variable {α : Type*} [LinearOrder α] {S : Set α} {f : α → α} {a m : α}

/-- From the start on, the function leads to the least element of the set above a point. -/
def Leads (S : Set α) (f : α → α) (a : α) : Prop :=
  ∀ u, a ≤ u → IsLeast {m | m ∈ S ∧ u < m} (f u)

theorem Leads.le_iterate (hf : Leads S f a) (n : ℕ) : a ≤ f^[n] a := by
  induction n with
  | zero => exact le_rfl
  | succ n ih =>
    rw [Function.iterate_succ_apply']
    exact ih.trans (hf _ ih).1.2.le

/-- The next stop of the walk. -/
theorem Leads.isLeast_iterate (hf : Leads S f a) (n : ℕ) :
    IsLeast {m | m ∈ S ∧ f^[n] a < m} (f^[n + 1] a) := by
  rw [Function.iterate_succ_apply']
  exact hf _ (hf.le_iterate n)

theorem Leads.strictMono (hf : Leads S f a) : StrictMono fun n ↦ f^[n] a :=
  strictMono_nat_of_lt_succ fun n ↦ (hf.isLeast_iterate n).1.2

/-- The walk gets past every point. -/
theorem Leads.exists_le_iterate [LocallyFiniteOrder α] (hf : Leads S f a) (m : α) :
    ∃ n, m ≤ f^[n] a := by
  by_contra hnever
  push Not at hnever
  refine Set.infinite_range_of_injective hf.strictMono.injective
    ((Finset.Ico a m).finite_toSet.subset ?_)
  rintro _ ⟨n, rfl⟩
  exact Finset.mem_coe.2 (Finset.mem_Ico.2 ⟨hf.le_iterate n, hnever n⟩)

/-- **The walk visits the elements above its start, and nothing else.** -/
theorem Leads.range_iterate_eq [LocallyFiniteOrder α] (hf : Leads S f a) :
    Set.range (fun n ↦ f^[n + 1] a) = {m | m ∈ S ∧ a < m} := by
  ext m
  constructor
  · rintro ⟨n, rfl⟩
    have hstop := (hf.isLeast_iterate n).1
    exact ⟨hstop.1, (hf.le_iterate n).trans_lt hstop.2⟩
  · rintro ⟨hm, ham⟩
    -- the first stop that is not before `m` is `m`
    obtain ⟨n, hn, hfirst⟩ : ∃ n, m ≤ f^[n] a ∧ ∀ k < n, f^[k] a < m := by
      classical
      refine ⟨Nat.find (hf.exists_le_iterate m), Nat.find_spec (hf.exists_le_iterate m), ?_⟩
      exact fun k hk ↦ not_le.1 (Nat.find_min _ hk)
    rcases n with - | n
    · exact absurd (ham.trans_le hn) (lt_irrefl a)
    · refine ⟨n, le_antisymm ?_ hn⟩
      exact (hf.isLeast_iterate n).2 ⟨hm, hfirst n (Nat.lt_succ_self n)⟩

end Successors
