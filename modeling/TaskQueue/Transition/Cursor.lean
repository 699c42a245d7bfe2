import Mathlib.Order.Lattice
import TaskQueue.Transition.Run

/-!
# A cursor that only moves forward

Part of the state is a **cursor**: it points at something once it was set, and a step leaves it
where it is or moves it forward. Then the values it has over a run are in order, and **what it jumps
over it never points at** (`Run.not_between`), neither before the jump nor after it.
-/

namespace Machine

variable {σ ι α : Type*} [LinearOrder α] {M : Machine σ ι}
  {ok : List (Turn σ ι) → σ → ι → Prop} {cur : σ → Option α}

/-- A cursor that is set stays set, and does not go back. -/
def Forward (cur : σ → Option α) (s s' : σ) : Prop :=
  ∀ a, cur s = some a → ∃ b, cur s' = some b ∧ a ≤ b

theorem Forward.refl (s : σ) : Forward cur s s := fun a ha ↦ ⟨a, ha, le_rfl⟩

theorem Forward.trans {s s' s'' : σ} (h₁ : Forward cur s s') (h₂ : Forward cur s' s'') :
    Forward cur s s'' := by
  intro a ha
  obtain ⟨b, hb, hab⟩ := h₁ a ha
  obtain ⟨c, hc, hbc⟩ := h₂ b hb
  exact ⟨c, hc, hab.trans hbc⟩

theorem Forward.le {s s' : σ} {a b : α} (hforward : Forward cur s s') (ha : cur s = some a)
    (hb : cur s' = some b) : a ≤ b := by
  obtain ⟨b', hb', hle⟩ := hforward a ha
  obtain rfl := Option.some.inj (hb'.symm.trans hb)
  exact hle

namespace Run

variable {h newer older : List (Turn σ ι)} {s : σ} {t t' : Turn σ ι}
  (hstep : ∀ h s i, M.Run ok h s → ok h s i → Forward cur s (M.next s i))

include hstep

/-- From what a turn left to the end of the run. -/
theorem forward_after : ∀ {newer : List (Turn σ ι)} {s : σ}, M.Run ok (newer ++ t :: older) s →
    Forward cur (M.after t) s
  | [], s, hrun => by
    rw [hrun.of_cons.2.2]
    exact .refl _
  | t' :: newer, s, hrun => by
    obtain ⟨hbefore, hok, rfl⟩ := hrun.of_cons
    exact (forward_after hbefore).trans (hstep _ _ _ hbefore hok)

/-- From what a turn found to the end of the run. -/
theorem forward_before (hrun : M.Run ok (newer ++ t :: older) s) : Forward cur t.before s :=
  (hstep _ _ _ hrun.of_append.1 hrun.of_append.2).trans (forward_after hstep hrun)

/-- **What the cursor jumps over it never points at.** -/
theorem not_between (hrun : M.Run ok h s) (ht : t ∈ h) (ht' : t' ∈ h) {a b x : α}
    (ha : cur t.before = some a) (hb : cur (M.after t) = some b) (hx : cur t'.before = some x) :
    x ≤ a ∨ b ≤ x := by
  obtain ⟨newer, older, rfl⟩ := List.append_of_mem ht
  rcases List.mem_append.1 ht' with hnewer | holder
  · obtain ⟨newer, between, rfl⟩ := List.append_of_mem hnewer
    rw [List.append_assoc, List.cons_append] at hrun
    exact .inr ((forward_after hstep hrun.of_append.1).le hb hx)
  · rcases List.mem_cons.1 holder with rfl | holder
    · rw [ha] at hx
      exact .inl (Option.some.inj hx).ge
    · obtain ⟨between, older, rfl⟩ := List.append_of_mem holder
      exact .inl ((forward_before hstep hrun.of_append.1).le hx ha)

end Run

end Machine
