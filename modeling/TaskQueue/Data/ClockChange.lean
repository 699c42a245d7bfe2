import Mathlib.Algebra.Order.Ring.Abs
import Mathlib.Algebra.Order.Ring.Int

/-!
# A clock that is changed once

A wall clock shows the time moved by an offset, and now and then the offset changes. This is a clock
around one such change: the offset is `before` up to an instant and `after` from then on. Instants
and readings are integers.

A reading may be shown twice, or never. The usual way back from a reading to an instant is by the
offset in force at the reading itself, **taken for an instant**, and then once more by the offset in
force at where that leads (`resolve`). If both offsets have the same sign this has a simple form
(`OneSided.resolve_eq`): readings before an `edge` are resolved by the old offset, and all others by
the new one. With negative offsets the edge is the reading at which the clock is changed; with
positive ones it is the reading to which it is changed.

**Jumps.** To go on from an instant, one resolves the start of the hour or day that the clock shows
and adds something: some time to the instant (`lt_resolve_add_iff`), or a day or a month to what the
clock shows there (`lt_land_iff`). Both say when this leads forward. Where it does not, it leads
back to where one is, or further.
-/

/-- A change of the offset. -/
structure ClockChange where
  instant : ℤ
  before : ℤ
  after : ℤ

namespace ClockChange

variable (c : ClockChange) (t n : ℤ)

/-- The offset in force at an instant. -/
def offset : ℤ := if t < c.instant then c.before else c.after

/-- What the clock shows at an instant. -/
def reading : ℤ := t + c.offset t

/-- The offset by which a reading is resolved. -/
def resolve : ℤ := c.offset (n - c.offset n)

/-- The reading before which the old offset is used. -/
def edge : ℤ := c.instant + if c.before ≤ 0 ∧ c.after ≤ 0 then c.before else c.after

/-- The offsets have the same sign, and are not large. -/
structure OneSided (bound : ℤ) : Prop where
  side : c.before ≤ 0 ∧ c.after ≤ 0 ∨ 0 ≤ c.before ∧ 0 ≤ c.after
  before_le : |c.before| ≤ bound
  after_le : |c.after| ≤ bound

variable {c t n} {bound start len : ℤ} {advance : ℤ → ℤ}

theorem edge_of_nonneg (hbefore : 0 ≤ c.before) (hafter : 0 ≤ c.after) :
    c.edge = c.instant + c.after := by
  unfold edge
  split_ifs <;> omega

/-- **How a reading is resolved.** -/
theorem OneSided.resolve_eq (h : c.OneSided bound) (n : ℤ) :
    c.resolve n = if n < c.edge then c.before else c.after := by
  have hside := h.side
  unfold resolve offset edge
  split_ifs <;> omega

theorem OneSided.abs_offset_le (h : c.OneSided bound) (t : ℤ) : |c.offset t| ≤ bound := by
  unfold offset
  split_ifs
  · exact h.before_le
  · exact h.after_le

theorem OneSided.abs_sub_le (h : c.OneSided bound) : |c.after - c.before| ≤ bound := by
  have hside := h.side
  have hbefore := abs_le.1 h.before_le
  have hafter := abs_le.1 h.after_le
  exact abs_le.2 (by omega)

/-! ### Hours -/

variable (c) in
/-- The stretch of `len` that the clock shows at `t` began before the edge, and by the old offset it
is over. -/
def Overtaken (start len t : ℤ) : Prop :=
  c.instant ≤ t ∧ start < c.edge ∧ start + len ≤ t + c.before

instance : Decidable (c.Overtaken start len t) := inferInstanceAs (Decidable (_ ∧ _ ∧ _))

/-- **When the end of an hour is ahead.** -/
theorem OneSided.lt_resolve_add_iff (h : c.OneSided bound) (hle : start ≤ c.reading t)
    (hlt : c.reading t < start + len) :
    t < start - c.resolve start + len ↔ ¬ c.Overtaken start len t := by
  have hside := h.side
  rw [h.resolve_eq]
  unfold reading offset at hle hlt
  unfold Overtaken edge
  split_ifs at hle hlt ⊢ <;> omega

/-- With positive offsets it is if clocks are only set back to full hours. -/
theorem not_overtaken (hbefore : 0 ≤ c.before) (hafter : 0 ≤ c.after)
    (hfull : c.after < c.before → len ∣ c.instant + c.after) (hstart : len ∣ start)
    (hlt : c.reading t < start + len) : ¬ c.Overtaken start len t := by
  rintro ⟨hinstant, hedge, hover⟩
  rw [reading, offset, if_neg (not_lt.2 hinstant)] at hlt
  rw [edge_of_nonneg hbefore hafter] at hedge
  -- the start and the edge are full hours, and both are in the last hour
  have hdvd : len ∣ c.instant + c.after - start := dvd_sub (hfull (by omega)) hstart
  have hle : len ≤ c.instant + c.after - start := Int.le_of_dvd (by omega) hdvd
  omega

/-! ### Days and months -/

/-- Counting on from a reading to a later one, as from the start of a day to that of the next: from
up to `bound` before the start one does not get to before it, and from up to `bound` after the start
one does not get to before where one gets from the start. -/
structure Advances (bound start : ℤ) (advance : ℤ → ℤ) : Prop where
  of_lt : ∀ v, start - bound ≤ v → v < start → start ≤ advance v
  of_gt : ∀ v, start < v → v ≤ start + bound → advance start ≤ advance v

variable (c) in
/-- What the clock shows at the instant that a reading is resolved to. -/
def shown (n : ℤ) : ℤ := c.reading (n - c.resolve n)

variable (c) in
/-- Where one gets by resolving a start, counting on from what the clock shows there, and resolving
again. -/
def land (start : ℤ) (advance : ℤ → ℤ) : ℤ :=
  advance (c.shown start) - c.resolve (advance (c.shown start))

variable (c) in
/-- The clock was set back over the next start; or it will be set forward over the next start, which
is reached by the new offset; or it was set forward over the start, and shows as much as is counted
from that much earlier. -/
def Missed (start : ℤ) (advance : ℤ → ℤ) (t : ℤ) : Prop :=
  c.instant ≤ t ∧ advance start < c.edge ∨
  t < c.instant ∧ c.edge ≤ advance start ∧ advance start ≤ t + c.after ∨
  (c.edge ≤ start ∧ start < c.instant + c.after) ∧
    advance (start - (c.after - c.before)) ≤ c.reading t

instance : Decidable (c.Missed start advance t) := inferInstanceAs (Decidable (_ ∨ _ ∨ _))

/-- **A reading that is resolved is shown**, unless the clock is set forward over it. -/
theorem OneSided.shown_eq (h : c.OneSided bound) (n : ℤ) :
    c.shown n =
      if c.instant + c.before ≤ n ∧ n < c.instant + c.after then
        if n < c.edge then n + (c.after - c.before) else n - (c.after - c.before)
      else n := by
  have hside := h.side
  rw [shown, h.resolve_eq]
  unfold reading offset edge
  split_ifs <;> omega

theorem OneSided.abs_shown_sub_le (h : c.OneSided bound) (n : ℤ) : |c.shown n - n| ≤ bound := by
  have habs := abs_le.1 h.abs_sub_le
  rw [h.shown_eq, abs_le]
  split_ifs <;> omega

/-- **When the next day or month is ahead.** -/
theorem OneSided.lt_land_iff (h : c.OneSided bound) (hadv : Advances bound start advance)
    (hle : start ≤ c.reading t) (hlt : c.reading t < advance start) :
    t < c.land start advance ↔ ¬ c.Missed start advance t := by
  have hside := h.side
  have habs := abs_le.1 h.abs_sub_le
  rw [land, h.shown_eq, h.resolve_eq]
  by_cases hgap : c.instant + c.before ≤ start ∧ start < c.instant + c.after
  · rw [if_pos hgap]
    -- the clock was set forward over the start
    have hpast : c.instant ≤ t := by
      by_contra hpast
      rw [reading, offset, if_pos (not_le.1 hpast)] at hle
      omega
    have hreading : c.reading t = t + c.after := by rw [reading, offset, if_neg (not_lt.2 hpast)]
    by_cases hedge : start < c.edge
    · have hnext := hadv.of_gt (start + (c.after - c.before)) (by omega) (by omega)
      have hnot : c.edge = c.instant + c.after := by
        unfold edge at hedge ⊢
        split_ifs at hedge ⊢ <;> omega
      rw [if_pos hedge, if_neg (by omega), Missed]
      omega
    · have hnext := hadv.of_lt (start - (c.after - c.before)) (by omega) (by omega)
      rw [if_neg hedge, if_neg (by omega), Missed]
      omega
  · rw [if_neg hgap, Missed]
    unfold reading offset edge at *
    split_ifs at hle hlt ⊢ <;> omega

/-- With positive offsets it always is. -/
theorem not_missed (hbefore : 0 ≤ c.before) (hafter : 0 ≤ c.after)
    (hlt : c.reading t < advance start) : ¬ c.Missed start advance t := by
  rw [Missed, edge_of_nonneg hbefore hafter]
  unfold reading offset at hlt ⊢
  split_ifs at hlt ⊢ <;> omega

end ClockChange
