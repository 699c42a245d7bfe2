import Mathlib.Algebra.Group.Nat.Defs
import Mathlib.Data.List.Perm.Subperm
import Mathlib.Data.List.Sort

/-!
# Bounded batches of a sorted backlog

A sweep of a backlog acts on at most `n` members of it. If the backlog is one sorted list `l`, the
batch is `l.take n`: an **initial segment**, so that nobody is passed over in favour of somebody
later. A sweep may also divide the backlog and bound the parts, in one of two ways:

* `drain n d r` takes from `d` first and from `r` what is left of the bound. Against one batch of
  the two merged, `mem_drain_iff` says when it takes the same members, and `filter_drain_iff` when
  it also takes those of each class in the same order.
* A bound on each class of members, a multiple of `n`: `forall_mem_take_iff` says when no more is
  taken than by one batch of all, and by `filter_take_eq` the same is taken then, in the same order.

Members end up on the list of their class; `update_concat` and `update_cons` say what one more of
them adds to each list.
-/

namespace Batch

section Order

variable {α : Type*} [LinearOrder α] {l s d r m : List α} {n : ℕ} {x y : α}

/-- A batch is an initial segment of the backlog. -/
theorem mem_take_of_lt (hl : l.SortedLT) (hx : x ∈ l.take n) (hy : y ∈ l) (hlt : y < x) :
    y ∈ l.take n := by
  by_contra hlate
  have hsplit : (l.take n ++ l.drop n).Pairwise (· < ·) := by
    rw [List.take_append_drop]
    exact hl.pairwise
  have hdrop : y ∈ l.drop n := by
    rw [← List.take_append_drop n l, List.mem_append] at hy
    exact hy.resolve_left hlate
  exact lt_asymm hlt ((List.pairwise_append.1 hsplit).2.2 x hx y hdrop)

/-- **An initial segment of the right length is the batch.** -/
theorem mem_iff_mem_take (hl : l.SortedLT) (hs : s.Nodup) (hlen : s.length = (l.take n).length)
    (hsub : ∀ x ∈ s, x ∈ l) (hlow : ∀ x ∈ s, ∀ y ∈ l, y < x → y ∈ s) (x : α) :
    x ∈ s ↔ x ∈ l.take n := by
  have htake : (l.take n).Nodup := hl.nodup.sublist (List.take_sublist n l)
  -- two initial segments are comparable, and these are of the same length
  have hperm : s.Perm (l.take n) := by
    by_cases hin : ∀ x ∈ s, x ∈ l.take n
    · exact (hs.subperm hin).perm_of_length_le hlen.ge
    · push Not at hin
      obtain ⟨z, hz, hlate⟩ := hin
      refine ((htake.subperm fun y hy ↦ ?_).perm_of_length_le hlen.le).symm
      have hyl : y ∈ l := List.mem_of_mem_take hy
      refine hlow z hz y hyl (lt_of_not_ge fun hle ↦ hlate ?_)
      rcases hle.eq_or_lt with rfl | hlt
      · exact hy
      · exact mem_take_of_lt hl hy (hsub z hz) hlt
  exact hperm.mem_iff

/-! ### One part before the other -/

/-- A batch that drains `d` before `r`. -/
def drain (n : ℕ) (d r : List α) : List α := d.take n ++ r.take (n - d.length)

section Drain

variable (hd : d.SortedLT) (hr : r.SortedLT) (hm : m.SortedLT)
  (hmem : ∀ x, x ∈ m ↔ x ∈ d ∨ x ∈ r) (hdisj : ∀ x ∈ d, x ∉ r)

include hd hr hdisj in
theorem nodup_drain : (drain n d r).Nodup := by
  refine (hd.nodup.sublist (List.take_sublist _ _)).append
    (hr.nodup.sublist (List.take_sublist _ _)) fun x hx hx' ↦ ?_
  exact hdisj x (List.mem_of_mem_take hx) (List.mem_of_mem_take hx')

include hd hr hm hmem hdisj in
theorem length_drain : (drain n d r).length = (m.take n).length := by
  have hperm : m.Perm (d ++ r) := by
    refine (List.perm_ext_iff_of_nodup hm.nodup (hd.nodup.append hr.nodup hdisj)).2 fun x ↦ ?_
    rw [hmem, List.mem_append]
  have hlen := hperm.length_eq
  rw [List.length_append] at hlen
  rw [drain, List.length_append, List.length_take, List.length_take, List.length_take, hlen]
  omega

include hd hr hm hmem hdisj in
/-- **When draining one part first takes the right members**: those of the other part that come
before a member taken from the first fit in with the whole first part. -/
theorem mem_drain_iff : (∀ x, x ∈ drain n d r ↔ x ∈ m.take n) ↔
    ∀ x ∈ d.take n, ∀ y ∈ r, y < x → y ∈ r.take (n - d.length) := by
  constructor
  · intro hsame x hx y hy hlt
    have hxm : x ∈ m.take n := (hsame x).1 (List.mem_append_left _ hx)
    have hym : y ∈ m.take n := mem_take_of_lt hm hxm ((hmem y).2 (.inr hy)) hlt
    refine (List.mem_append.1 ((hsame y).2 hym)).resolve_left fun hyd ↦ ?_
    exact hdisj y (List.mem_of_mem_take hyd) hy
  · intro hfit
    refine mem_iff_mem_take hm (nodup_drain hd hr hdisj) (length_drain hd hr hm hmem hdisj) ?_ ?_
    · intro x hx
      rcases List.mem_append.1 hx with hx | hx
      · exact (hmem x).2 (.inl (List.mem_of_mem_take hx))
      · exact (hmem x).2 (.inr (List.mem_of_mem_take hx))
    · intro x hx y hy hlt
      rcases List.mem_append.1 hx with hx | hx <;> rcases (hmem y).1 hy with hy | hy
      · exact List.mem_append_left _ (mem_take_of_lt hd hx hy hlt)
      · exact List.mem_append_right _ (hfit x hx y hy hlt)
      · -- something was left of the bound, so all of `d` was taken
        have hpos : d.length < n := by
          by_contra hle
          rw [Nat.sub_eq_zero_of_le (not_lt.1 hle), List.take_zero] at hx
          cases hx
        rw [drain, List.take_of_length_le hpos.le]
        exact List.mem_append_left _ hy
      · exact List.mem_append_right _ (mem_take_of_lt hr hx hy hlt)

include hd hr hm hdisj in
/-- **When it also keeps the order of each class**: no member of the other part that is taken comes
before one of the first part of the same class. -/
theorem filter_drain_iff {β : Type*} [DecidableEq β] (cls : α → β)
    (hsame : ∀ x, x ∈ drain n d r ↔ x ∈ m.take n) :
    (∀ c, (drain n d r).filter (cls · = c) = (m.take n).filter (cls · = c)) ↔
      ∀ x ∈ d.take n, ∀ y ∈ r.take (n - d.length), y < x → cls y ≠ cls x := by
  have htake : ∀ {l : List α}, l.SortedLT → ∀ (k : ℕ) (c : β),
      ((l.take k).filter (cls · = c)).Pairwise (· < ·) := fun hl k c ↦
    hl.pairwise.sublist (List.filter_sublist.trans (List.take_sublist _ _))
  constructor
  · intro heq x hx y hy hlt hcls
    have hsorted := htake hm n (cls x)
    rw [← heq, drain, List.filter_append] at hsorted
    have hlt' : x < y := (List.pairwise_append.1 hsorted).2.2 x
      (List.mem_filter.2 ⟨hx, by simp⟩) y (List.mem_filter.2 ⟨hy, by simpa using hcls⟩)
    exact lt_asymm hlt hlt'
  · intro hcls c
    have hsorted : ((drain n d r).filter (cls · = c)).Pairwise (· < ·) := by
      rw [drain, List.filter_append]
      refine List.pairwise_append.2 ⟨htake hd n c, htake hr _ c, fun x hx y hy ↦ ?_⟩
      obtain ⟨hx, hxc⟩ := List.mem_filter.1 hx
      obtain ⟨hy, hyc⟩ := List.mem_filter.1 hy
      have hne : x ≠ y := fun heq ↦
        hdisj x (List.mem_of_mem_take hx) (heq ▸ List.mem_of_mem_take hy)
      refine hne.lt_of_le (not_lt.1 fun hlt ↦ hcls x hx y hy hlt ?_)
      rw [of_decide_eq_true hxc, of_decide_eq_true hyc]
    refine hsorted.sortedLT.eq_of_mem_iff (htake hm n c).sortedLT fun x ↦ ?_
    rw [List.mem_filter, List.mem_filter, hsame]

end Drain

end Order

/-! ### A bound on each class -/

section Classes

variable {α β : Type*} [DecidableEq β] {l : List α} {n : ℕ} {x : α}

/-- Who is in the batch of all is in the batch of their class. -/
theorem mem_take_filter {p : α → Bool} (hx : x ∈ l.take n) (hp : p x = true) :
    x ∈ (l.filter p).take n := by
  have hprefix : (l.take n).filter p <+: (l.filter p).take n := by
    refine List.prefix_take_iff.2 ⟨(List.take_prefix n l).filter p, ?_⟩
    exact (List.length_filter_le _ _).trans (List.length_take_le _ _)
  exact hprefix.subset (List.mem_filter.2 ⟨hx, hp⟩)

/-- The member after the batch of all is in the batch of its class, unless that class fills the
batch of all. -/
theorem mem_take_filter_of_drop {rest : List α} {N : ℕ} {p : α → Bool}
    (hdrop : l.drop n = x :: rest) (hp : p x = true) (hlt : ((l.take n).filter p).length < N) :
    x ∈ (l.filter p).take N := by
  have hsplit : l.filter p = (l.take n).filter p ++ x :: rest.filter p := by
    rw [← List.filter_cons_of_pos hp, ← hdrop, ← List.filter_append, List.take_append_drop]
  obtain ⟨k, hk⟩ := Nat.exists_eq_add_of_lt hlt
  rw [hsplit, hk, List.take_append, List.take_of_length_le (by omega), Nat.add_assoc,
    Nat.add_sub_cancel_left, List.take_succ_cons]
  exact List.mem_append_right _ List.mem_cons_self

/-- Every class has its first member in its batch. -/
theorem exists_mem_take_filter {p : α → Bool} {N : ℕ} (hx : x ∈ l) (hp : p x = true) (hN : 0 < N) :
    ∃ y ∈ (l.filter p).take N, p y = true := by
  rcases hfilter : l.filter p with - | ⟨y, rest⟩
  · rw [List.filter_eq_nil_iff] at hfilter
    exact absurd hp (hfilter x hx)
  · have hy : p y = true := (List.mem_filter.1 (hfilter ▸ List.mem_cons_self)).2
    obtain ⟨k, rfl⟩ := Nat.exists_eq_add_of_lt hN
    exact ⟨y, by rw [Nat.zero_add, List.take_succ_cons]; exact List.mem_cons_self, hy⟩

/-- **When bounding the classes takes no more than one batch of all**, the bound of a class being
`n` times a positive number `k`: either everything fits into the batch, or it is all of one class,
whose bound is just `n`. -/
theorem forall_mem_take_iff (hl : l.Nodup) (hn : 0 < n) (cls : α → β) (k : β → ℕ)
    (hk : ∀ x ∈ l, 0 < k (cls x)) :
    (∀ x, x ∈ (l.filter (cls · = cls x)).take (n * k (cls x)) → x ∈ l.take n) ↔
      l.length ≤ n ∨ ∃ c, k c = 1 ∧ ∀ x ∈ l, cls x = c := by
  constructor
  · intro hall
    refine or_iff_not_imp_left.2 fun hlong ↦ ?_
    rcases hdrop : l.drop n with - | ⟨y, rest⟩
    · exact absurd (List.drop_eq_nil_iff.1 hdrop) hlong
    have hy : y ∈ l := List.mem_of_mem_drop (hdrop ▸ List.mem_cons_self)
    have hlate : y ∉ l.take n := by
      have hsplit := hl
      rw [← List.take_append_drop n l, hdrop] at hsplit
      exact fun hin ↦ (List.nodup_append.1 hsplit).2.2 y hin y List.mem_cons_self rfl
    -- the class of `y` fills the batch of all
    have hfull : n * k (cls y) ≤ ((l.take n).filter (cls · = cls y)).length := by
      refine not_lt.1 fun hlt ↦ hlate (hall y ?_)
      exact mem_take_filter_of_drop hdrop (by simp) hlt
    have htake : (l.take n).length = n := List.length_take_of_le (not_le.1 hlong).le
    have hle : ((l.take n).filter (cls · = cls y)).length ≤ n :=
      (List.length_filter_le _ _).trans htake.le
    have hone : k (cls y) = 1 :=
      le_antisymm (Nat.le_of_mul_le_mul_left (by omega : n * k (cls y) ≤ n * 1) hn) (hk y hy)
    have hclass : ∀ x ∈ l.take n, cls x = cls y := by
      rw [hone, mul_one] at hfull
      have hself := List.length_filter_eq_length_iff.1 (le_antisymm
        (List.length_filter_le _ _) (htake.le.trans hfull))
      exact fun x hx ↦ of_decide_eq_true (hself x hx)
    refine ⟨cls y, hone, fun z hz ↦ ?_⟩
    by_contra hne
    obtain ⟨x, hx, hxz⟩ := exists_mem_take_filter (p := (cls · = cls z)) hz (by simp)
      (Nat.mul_pos hn (hk z hz))
    rw [decide_eq_true_iff] at hxz
    rw [← hxz] at hx hne
    exact hne (hclass x (hall x hx))
  · rintro (hshort | ⟨c, hone, hclass⟩) x hx
    · rw [List.take_of_length_le hshort]
      exact (List.mem_filter.1 (List.mem_of_mem_take hx)).1
    · have hxc : cls x = c := hclass x (List.mem_filter.1 (List.mem_of_mem_take hx)).1
      rw [hxc, hone, mul_one, List.filter_eq_self.2 fun y hy ↦ decide_eq_true (hclass y hy)] at hx
      exact hx

/-- In that case the batch of all is made of the batches of the classes. -/
theorem filter_take_eq {cls : α → β} {k : β → ℕ} (hk : ∀ x ∈ l, 0 < k (cls x))
    (h : l.length ≤ n ∨ ∃ c, k c = 1 ∧ ∀ x ∈ l, cls x = c) (c : β) :
    (l.take n).filter (cls · = c) = (l.filter (cls · = c)).take (n * k c) := by
  by_cases hex : ∃ x ∈ l, cls x = c
  · obtain ⟨x, hx, rfl⟩ := hex
    rcases h with hshort | ⟨c, hone, hclass⟩
    · have hle : (l.filter (cls · = cls x)).length ≤ n * k (cls x) :=
        (List.length_filter_le _ _).trans (hshort.trans (Nat.le_mul_of_pos_right n (hk x hx)))
      rw [List.take_of_length_le hshort, List.take_of_length_le hle]
    · rw [hclass x hx, hone, mul_one, List.filter_eq_self.2 fun y hy ↦ decide_eq_true (hclass y hy),
        List.filter_eq_self.2 fun y hy ↦ decide_eq_true (hclass y (List.mem_of_mem_take hy))]
  · have hnone : ∀ y ∈ l, ¬ decide (cls y = c) = true := fun y hy heq ↦
      hex ⟨y, hy, of_decide_eq_true heq⟩
    rw [List.filter_eq_nil_iff.2 hnone, List.take_nil,
      List.filter_eq_nil_iff.2 fun y hy ↦ hnone y (List.mem_of_mem_take hy)]

/-- Nothing is dropped from a list without repetitions. -/
theorem eraseDups_of_nodup [DecidableEq α] : ∀ {l : List α}, l.Nodup → l.eraseDups = l
  | [], _ => rfl
  | x :: l, h => by
    rw [List.nodup_cons] at h
    have hkeep : l.filter (fun y ↦ !y == x) = l := by
      refine List.filter_eq_self.2 fun y hy ↦ ?_
      have hne : y ≠ x := fun heq ↦ h.1 (heq ▸ hy)
      simpa using hne
    rw [List.eraseDups_cons, hkeep, eraseDups_of_nodup h.2]

/-- A member goes to the end of the list of its class. -/
theorem update_concat (f : β → List α) {cls : α → Option β} {c : β} (hc : cls x = some c) (c' : β) :
    Function.update f c (f c ++ [x]) c' = f c' ++ [x].filter (cls · = some c') := by
  by_cases heq : c' = c
  · subst heq
    rw [Function.update_self, List.filter_cons_of_pos (by simp [hc])]
    rfl
  · rw [Function.update_of_ne heq, List.filter_cons_of_neg (by simp [hc, Ne.symm heq])]
    exact (List.append_nil _).symm

/-- A member goes to the front of the list of its class. -/
theorem update_cons (f : β → List α) {cls : α → Option β} {c : β} (hc : cls x = some c) (c' : β) :
    Function.update f c (x :: f c) c' = [x].filter (cls · = some c') ++ f c' := by
  by_cases heq : c' = c
  · subst heq
    rw [Function.update_self, List.filter_cons_of_pos (by simp [hc])]
    rfl
  · rw [Function.update_of_ne heq, List.filter_cons_of_neg (by simp [hc, Ne.symm heq])]
    rfl

end Classes

end Batch
