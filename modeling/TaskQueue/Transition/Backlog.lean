import Mathlib.Algebra.GroupWithZero.Nat
import Mathlib.Data.Finset.Card
import TaskQueue.Data.Table
import TaskQueue.Transition.Run

/-!
# Working off a backlog in order

A table of entries with times is worked off from the front: a **sweep** takes the first few entries
that are due, others come and go. How long can an entry wait for its sweep? What decides it is the
set of entries **ahead** of it, those with an earlier time or the same time and a smaller key. As
long as nothing new comes in ahead of it, every sweep of `n` entries either takes the entry or takes
`n` of those ahead of it (`card_ahead_add_le`).

The second half is the argument over a run (`Run.left_or_waits`): if a rank never grows while
something waits, and each turn takes its work off the rank, then it has left by the time the work
done exceeds the rank it started with. Where the work comes in rounds that are never far apart, this
bounds the waiting time (`le_countP_of_gaps`).
-/

namespace Table

variable {κ : Type*} [LinearOrder κ] {m m' : Table κ ℤ} {c p : ℤ ×ₗ κ}

/-! ### The entries ahead of one -/

/-- The entries of a table that come before `c`. -/
def ahead (m : Table κ ℤ) (c : ℤ ×ₗ κ) : Finset (ℤ ×ₗ κ) :=
  ((m.due (fun _ ↦ true) (ofLex c).1).filter fun p ↦ p < c).toFinset

theorem mem_ahead : p ∈ m.ahead c ↔ m.lookup (ofLex p).2 = some (ofLex p).1 ∧ p < c := by
  rw [ahead, List.mem_toFinset, List.mem_filter, mem_due, decide_eq_true_eq]
  constructor
  · rintro ⟨⟨hlook, -, -⟩, hlt⟩
    exact ⟨hlook, hlt⟩
  · rintro ⟨hlook, hlt⟩
    exact ⟨⟨hlook, (Prod.Lex.le_iff.1 hlt.le).elim le_of_lt fun h ↦ h.1.le, rfl⟩, hlt⟩

/-- What is new in a table but not before the time of `c` is not ahead of `c`. -/
theorem ahead_subset (hnew : ∀ k t, m'.lookup k = some t → m.lookup k = some t ∨ (ofLex c).1 < t) :
    m'.ahead c ⊆ m.ahead c := by
  intro p hp
  obtain ⟨hlook, hlt⟩ := mem_ahead.1 hp
  refine mem_ahead.2 ⟨(hnew _ _ hlook).resolve_right fun hlate ↦ ?_, hlt⟩
  rcases Prod.Lex.lt_iff.1 hlt with hearly | ⟨hsame, -⟩
  · exact hlate.asymm hearly
  · exact hlate.ne' hsame

/-- **A sweep that passes an entry over takes others that are ahead of it**, as many as it takes at
all. -/
theorem card_ahead_add_le {keep : κ → Bool} {now : ℤ} {n : ℕ}
    (hmem : c ∈ m.due keep now) (hleft : c ∉ (m.due keep now).take n)
    (hgone : ∀ p ∈ (m.due keep now).take n, m'.lookup (ofLex p).2 ≠ some (ofLex p).1)
    (hsub : m'.ahead c ⊆ m.ahead c) : (m'.ahead c).card + n ≤ (m.ahead c).card := by
  have hsplit := List.take_append_drop n (m.due keep now)
  have hc : c ∈ (m.due keep now).drop n := by
    rw [← hsplit] at hmem
    exact (List.mem_append.1 hmem).resolve_left hleft
  have hlen : ((m.due keep now).take n).length = n := by
    rw [List.length_take, min_eq_left]
    have hpos := List.length_pos_of_mem hc
    rw [List.length_drop] at hpos
    omega
  have hsorted := (due_sortedLT m keep now).pairwise
  rw [← hsplit] at hsorted
  have hnodup : ((m.due keep now).take n).Nodup :=
    (List.pairwise_append.1 hsorted).1.imp fun h ↦ h.ne
  have hswept : ((m.due keep now).take n).toFinset ⊆ m.ahead c := by
    intro p hp
    have hp := List.mem_toFinset.1 hp
    exact mem_ahead.2 ⟨(mem_due.1 (List.mem_of_mem_take hp)).1,
      (List.pairwise_append.1 hsorted).2.2 p hp c hc⟩
  have hdisj : Disjoint (m'.ahead c) ((m.due keep now).take n).toFinset :=
    Finset.disjoint_left.2 fun p hp hp' ↦ hgone p (List.mem_toFinset.1 hp') (mem_ahead.1 hp).1
  calc (m'.ahead c).card + n
      = (m'.ahead c).card + ((m.due keep now).take n).toFinset.card := by
        rw [List.toFinset_card_of_nodup hnodup, hlen]
    _ = (m'.ahead c ∪ ((m.due keep now).take n).toFinset).card :=
        (Finset.card_union_of_disjoint hdisj).symm
    _ ≤ (m.ahead c).card := Finset.card_le_card (Finset.union_subset hsub hswept)

end Table

/-! ### Waiting along a run -/

namespace Machine.Run

variable {σ ι : Type*} {M : Machine σ ι} {ok : List (Turn σ ι) → σ → ι → Prop}
  {older : List (Turn σ ι)} {s₀ : σ}

/-- The history of a run says where it got to. -/
theorem state_unique : ∀ {h : List (Turn σ ι)} {s s' : σ}, M.Run ok h s → M.Run ok h s' → s = s'
  | [], _, _, .start, .start => rfl
  | _ :: _, _, _, hrun, hrun' => hrun.of_cons.2.2.trans hrun'.of_cons.2.2.symm

/-- **Bounded waiting.** Something waits in the state `s₀`, and as long as it does every turn takes
its work off the rank. Then some turn took it out, or it still waits and the rank is down by all the
work done. -/
theorem left_or_waits (waits : σ → Prop) (rank : σ → ℕ) (work : Turn σ ι → ℕ)
    (hbefore : M.Run ok older s₀) (hwaits : waits s₀) :
    ∀ {newer : List (Turn σ ι)} {s : σ}, M.Run ok (newer ++ older) s →
      (∀ t ∈ newer, ∀ h, M.Run ok h t.before → ok h t.before t.input → waits t.before →
        waits (M.after t) → rank (M.after t) + work t ≤ rank t.before) →
      (∃ t ∈ newer, (∃ h, M.Run ok h t.before ∧ ok h t.before t.input) ∧ waits t.before ∧
        ¬ waits (M.after t)) ∨
      waits s ∧ rank s + (newer.map work).sum ≤ rank s₀
  | [], s, hrun, _ => by
    obtain rfl : s = s₀ := state_unique hrun hbefore
    exact .inr ⟨hwaits, le_rfl⟩
  | t :: newer, s, hrun, hstep => by
    obtain ⟨hrun', hok, rfl⟩ := hrun.of_cons
    rcases left_or_waits waits rank work hbefore hwaits hrun' fun t' ht' ↦
      hstep t' (List.mem_cons_of_mem t ht') with ⟨t', ht', hleft⟩ | ⟨hwait, hle⟩
    · exact .inl ⟨t', List.mem_cons_of_mem t ht', hleft⟩
    · by_cases hafter : waits (M.after t)
      · have hone := hstep t List.mem_cons_self _ hrun' hok hwait hafter
        refine .inr ⟨hafter, ?_⟩
        rw [List.map_cons, List.sum_cons]
        omega
      · exact .inl ⟨t, List.mem_cons_self, ⟨_, hrun', hok⟩, hwait, hafter⟩

end Machine.Run

/-! ### Rounds that are never far apart -/

namespace List

variable {α : Type*}

/-- If something in the list happens in each of `n` windows of length `g` that follow one another,
then it happens at least `n` times. -/
theorem le_countP_of_gaps {l : List α} {p : α → Bool} (time : α → ℤ) (start g : ℤ) (n : ℕ)
    (hwindow : ∀ i < n, ∃ x ∈ l, p x = true ∧ start + i * g < time x ∧
      time x ≤ start + (i + 1) * g) : n ≤ l.countP p := by
  have hcount : n ≤ l.countP fun x ↦ p x && decide (time x ≤ start + n * g) := by
    induction n with
    | zero => exact Nat.zero_le _
    | succ n ih =>
      have hprev := ih fun i hi ↦ hwindow i (Nat.lt_succ_of_lt hi)
      obtain ⟨x, hx, hpx, hlow, hhigh⟩ := hwindow n (Nat.lt_succ_self n)
      have hg : start + n * g < start + (n + 1) * g := hlow.trans_le hhigh
      -- those of the earlier windows, and the one found in this
      rw [List.countP_eq_countP_filter_add l _ fun x ↦ decide (time x ≤ start + n * g),
        List.countP_filter, List.countP_filter]
      refine Nat.add_le_add (hprev.trans (countP_mono_left fun y _ hy ↦ ?_))
        (List.countP_pos_iff.2 ⟨x, hx, ?_⟩)
      · rw [Bool.and_eq_true, decide_eq_true_eq] at hy
        rw [Bool.and_eq_true, Bool.and_eq_true, decide_eq_true_eq, decide_eq_true_eq]
        push_cast
        exact ⟨⟨hy.1, hy.2.trans hg.le⟩, hy.2⟩
      · rw [Bool.and_eq_true, Bool.and_eq_true, decide_eq_true_eq]
        push_cast
        exact ⟨⟨hpx, hhigh⟩, by simpa using hlow⟩
  exact hcount.trans (countP_mono_left fun x _ hx ↦ (Bool.and_eq_true_iff.1 hx).1)

/-- What happens at least so much each time adds up. -/
theorem countP_mul_le_sum {p : α → Bool} {f : α → ℕ} {n : ℕ} (h : ∀ x, p x = true → n ≤ f x)
    (l : List α) : l.countP p * n ≤ (l.map f).sum := by
  induction l with
  | nil => exact (Nat.zero_mul n).le
  | cons x l ih =>
    rw [map_cons, sum_cons, countP_cons, Nat.add_mul, Nat.add_comm]
    refine Nat.add_le_add ?_ ih
    split_ifs with hx
    · exact (Nat.one_mul n).le.trans (h x hx)
    · exact (Nat.zero_mul n).le.trans (Nat.zero_le _)

end List
