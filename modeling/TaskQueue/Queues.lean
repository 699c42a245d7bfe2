import Mathlib.Data.List.GetD
import Mathlib.Probability.Distributions.Uniform
import TaskQueue.Data.Table
import TaskQueue.Data.Weighted
import TaskQueue.Data.Word

/-!
# Which queue to try first

`queueSelector` of `queues.go`: for each poll, an order in which to try the queues, drawn at random
by weighted sampling without replacement. Weights and their running sum are machine integers.

**Draws.** `rand.IntN` is a parameter of `next`, in any monad. With draws that may be anything in
range and a panic for a bound that is not positive, the same definition says that no call fails
(`TaskQueue.Server.Config`); with uniform draws, it is the distribution of the orders.

**Stages.** A call goes through stages: the indices still in the pool, the order so far, and the
weight that remains. All that is needed of the sum is that it fits in an `int` (`Fits`): then what
remains is at every stage the exact weight of the pool (`Exact`), so the walk along the cumulative
weights finds a queue, and it finds each queue for as many draws as it weighs (`card_pick`).
-/

open scoped ENNReal

namespace TaskQueue

structure QueueSelector where
  names : List String
  weights : List Int64
  total : Int64
  strict : Bool
  /-- The buffers that calls reuse. -/
  order : List String
  pool : List ℕ

/-- The weight of a queue: 1 if the map is nil or has no entry for it. -/
def weightOf (weights : Option (Table String Int64)) (q : String) : Int64 :=
  (weights.bind fun m ↦ m.lookup q).getD 1

/-- `newQueueSelector` -/
def newQueueSelector (names : List String) (weights : Option (Table String Int64))
    (strict : Bool) : QueueSelector where
  names := names
  weights := names.map (weightOf weights)
  total := names.foldl (fun total q ↦ total + weightOf weights q) 0
  strict := strict
  order := []
  pool := []

namespace QueueSelector

/-- How far a call of `next` is. -/
structure Stage where
  pool : List ℕ
  order : List String
  remaining : Int64

variable (s : QueueSelector)

/-- `s.weights[i]` -/
def weight (i : ℕ) : Int64 := s.weights.getD i 0

/-- `s.names[i]` -/
def name (i : ℕ) : String := s.names.getD i ""

/-- The walk along the cumulative weights, from position `k` on: where `r` falls, or 0. -/
def walk (r : Int64) : List ℕ → ℕ → Int64 → ℕ
  | [], _, _ => 0
  | idx :: pool, k, acc =>
    let acc := acc + s.weight idx
    if r < acc then k else walk r pool (k + 1) acc

/-- One round of the loop of `next`, with the draw `r`. -/
def take (st : Stage) (r : Int64) : Stage :=
  let pick := s.walk r st.pool 0 0
  let idx := st.pool.getD pick 0
  { pool := st.pool.eraseIdx pick
    order := st.order ++ [s.name idx]
    remaining := st.remaining - s.weight idx }

/-- Where the loop of `next` starts, whatever earlier calls left in the buffers. -/
def start : Stage where
  pool := List.range s.names.length
  order := []
  remaining := s.total

section

variable {m : Type → Type} [Monad m] (intN : Int64 → m Int64)

/-- The loop of `next`. A round takes one index out of the pool, so as many rounds as there are
queues are enough. -/
def loop : ℕ → Stage → m Stage
  | 0, st => pure st
  | n + 1, st =>
    if st.pool.isEmpty then pure st
    else do
      let r ← intN st.remaining
      loop n (s.take st r)

/-- `next` -/
def next : m (List String × QueueSelector) :=
  if s.strict || decide (s.names.length < 2) then pure (s.names, s)
  else do
    let st ← s.loop intN s.names.length s.start
    pure (st.order, { s with order := st.order, pool := st.pool })

/-- So many calls of `next` in a row: the orders they return, and the selector they leave. -/
def calls : ℕ → QueueSelector → m (List (List String) × QueueSelector)
  | 0, s => pure ([], s)
  | n + 1, s => do
    let r ← s.next intN
    let rest ← calls n r.2
    pure (r.1 :: rest.1, rest.2)

end

/-! ### Stages -/

/-- The stages a call can get to: draws are in range as long as there is something to draw from. -/
inductive Reached (s : QueueSelector) : Stage → Prop
  | start : s.strict = false → 2 ≤ s.names.length → Reached s s.start
  | take {st : Stage} (r : Int64) : Reached s st → st.pool ≠ [] → 0 ≤ r → r < st.remaining →
      Reached s (s.take st r)

/-- The weight of an index, as a number. -/
def w (i : ℕ) : ℕ := (s.weight i).toInt.toNat

/-- What `next` needs of a selector: a positive weight for every queue, and a sum that fits. -/
structure Fits : Prop where
  pos : ∀ i < s.names.length, 0 < (s.weight i).toInt
  total : s.total.toInt = (Weighted.total s.w (List.range s.names.length) : ℤ)

/-- What remains is the exact weight of the pool. -/
structure Exact (st : Stage) : Prop where
  nodup : st.pool.Nodup
  range : ∀ i ∈ st.pool, i < s.names.length
  remaining : st.remaining.toInt = (Weighted.total s.w st.pool : ℤ)
  order : (st.order ++ st.pool.map s.name).Perm s.names

variable {s} {st : Stage} {r : Int64}

theorem Fits.w_eq (hfits : s.Fits) {i : ℕ} (hi : i < s.names.length) :
    (s.w i : ℤ) = (s.weight i).toInt :=
  Int.toNat_of_nonneg (hfits.pos i hi).le

/-- The walk in machine integers is the walk over the exact weights. -/
theorem walk_eq (hfits : s.Fits) {pool : List ℕ} (hrange : ∀ i ∈ pool, i < s.names.length) (k : ℕ)
    {acc : Int64} (hacc : 0 ≤ acc.toInt) (hle : acc.toInt ≤ r.toInt)
    (hr : r.toInt < acc.toInt + Weighted.total s.w pool)
    (hsum : acc.toInt + Weighted.total s.w pool < 2 ^ 63) :
    s.walk r pool k acc = k + Weighted.pick s.w pool (r.toInt - acc.toInt).toNat := by
  induction pool generalizing k acc with
  | nil =>
    rw [Weighted.total_nil] at hr
    omega
  | cons i pool ih =>
    have hw := hfits.w_eq (hrange i List.mem_cons_self)
    rw [Weighted.total_cons] at hr hsum
    push_cast at hr hsum
    have hadd : (acc + s.weight i).toInt = acc.toInt + s.w i := by
      rw [Word.toInt_add (by omega) (by omega), hw]
    simp only [walk, Weighted.pick, Int64.lt_iff_toInt_lt, hadd]
    split_ifs with hlt hpick hpick
    · rfl
    · omega
    · omega
    · rw [ih (fun j hj ↦ hrange j (List.mem_cons_of_mem i hj)) (k + 1) (by omega) (by omega)
        (by omega) (by omega), hadd]
      rw [show (r.toInt - (acc.toInt + s.w i)).toNat = (r.toInt - acc.toInt).toNat - s.w i by omega]
      omega

/-- A draw in range is below the weight of the pool. -/
theorem Exact.lt_total (hst : s.Exact st) (h0 : 0 ≤ r) (hr : r < st.remaining) :
    0 ≤ r.toInt ∧ r.toInt < Weighted.total s.w st.pool := by
  refine ⟨Int64.le_iff_toInt_le.1 h0, ?_⟩
  rw [← hst.remaining]
  exact Int64.lt_iff_toInt_lt.1 hr

/-- **The queue a draw picks**, at an exact stage. -/
theorem walk_start (hfits : s.Fits) (hst : s.Exact st) (h0 : 0 ≤ r) (hr : r < st.remaining) :
    s.walk r st.pool 0 0 = Weighted.pick s.w st.pool r.toInt.toNat := by
  obtain ⟨hr0, hr1⟩ := hst.lt_total h0 hr
  have hmax := st.remaining.toInt_lt
  rw [hst.remaining] at hmax
  have h := @walk_eq s r hfits st.pool hst.range 0 0
  simp only [Int64.toInt_zero, zero_add, sub_zero] at h
  exact h le_rfl hr0 hr1 hmax

/-! ### One round -/

/-- The stage after the queue at position `k` of the pool was picked. -/
def takeAt (s : QueueSelector) (st : Stage) (k : ℕ) : Stage where
  pool := st.pool.eraseIdx k
  order := st.order ++ [s.name (st.pool.getD k 0)]
  remaining := st.remaining - s.weight (st.pool.getD k 0)

theorem take_eq (hfits : s.Fits) (hst : s.Exact st) (h0 : 0 ≤ r) (hr : r < st.remaining) :
    s.take st r = s.takeAt st (Weighted.pick s.w st.pool r.toInt.toNat) := by
  simp only [take, takeAt, walk_start hfits hst h0 hr]

theorem Exact.start (hfits : s.Fits) : s.Exact s.start where
  nodup := List.nodup_range
  range i hi := List.mem_range.1 hi
  remaining := hfits.total
  order := by
    have hnames : (List.range s.names.length).map s.name = s.names := by
      refine List.ext_getElem (by simp) fun i _ hi ↦ ?_
      rw [List.getElem_map, List.getElem_range, name, List.getD_eq_getElem _ _ hi]
    rw [QueueSelector.start, hnames]
    exact .rfl

/-- **A round keeps what remains exact.** -/
theorem Exact.takeAt (hfits : s.Fits) (hst : s.Exact st) {k : ℕ} (hk : k < st.pool.length) :
    s.Exact (s.takeAt st k) := by
  have hget : st.pool[k]? = some (st.pool.getD k 0) := by simp [hk]
  have hmem : st.pool.getD k 0 ∈ st.pool := List.mem_of_getElem? hget
  have herase := Weighted.total_eraseIdx s.w hget
  have hw := hfits.w_eq (hst.range _ hmem)
  have hmax := st.remaining.toInt_lt
  refine ⟨hst.nodup.eraseIdx k, fun i hi ↦ hst.range i (List.mem_of_mem_eraseIdx hi), ?_, ?_⟩
  · rw [QueueSelector.takeAt, Word.toInt_sub, ← hw, hst.remaining, ← herase]
    · push_cast
      ring
    all_goals
      rw [hst.remaining] at hmax ⊢
      omega
  · have hperm : (st.pool.getD k 0 :: st.pool.eraseIdx k).Perm st.pool := by
      rw [List.getD_eq_getElem _ _ hk]
      exact List.getElem_cons_eraseIdx_perm hk
    refine .trans ?_ hst.order
    simp only [QueueSelector.takeAt, List.append_assoc, List.singleton_append]
    exact (hperm.map s.name).append_left st.order

theorem Exact.take (hfits : s.Fits) (hst : s.Exact st) (h0 : 0 ≤ r) (hr : r < st.remaining) :
    s.Exact (s.take st r) := by
  obtain ⟨hr0, hr1⟩ := hst.lt_total h0 hr
  rw [take_eq hfits hst h0 hr]
  exact hst.takeAt hfits (Weighted.pick_lt (by omega))

/-- What remains is exact at every stage of every call. -/
theorem Reached.exact (hfits : s.Fits) (hreached : s.Reached st) : s.Exact st := by
  induction hreached with
  | start => exact Exact.start hfits
  | take r _ _ h0 hr ih => exact ih.take hfits h0 hr

/-- There is something to decide where there are stages. -/
theorem Reached.undecided (hreached : s.Reached st) : s.strict = false ∧ 2 ≤ s.names.length := by
  induction hreached with
  | start hstrict hlen => exact ⟨hstrict, hlen⟩
  | take _ _ _ _ _ ih => exact ih

theorem Exact.remaining_eq_sum (hfits : s.Fits) (hst : s.Exact st) :
    st.remaining.toInt = (st.pool.map fun i ↦ (s.weight i).toInt).sum := by
  rw [hst.remaining, Weighted.total, Nat.cast_list_sum, List.map_map]
  exact congrArg List.sum (List.map_congr_left fun i hi ↦ hfits.w_eq (hst.range i hi))

/-- As long as there is a queue to pick, there is something to draw from. -/
theorem Exact.remaining_pos (hfits : s.Fits) (hst : s.Exact st) (hne : st.pool ≠ []) :
    0 < st.remaining := by
  obtain ⟨i, pool, hpool⟩ := List.exists_cons_of_ne_nil hne
  have hi : i < s.names.length := hst.range i (by simp [hpool])
  have hpos : 0 < (s.w i : ℤ) := by
    rw [hfits.w_eq hi]
    exact hfits.pos i hi
  rw [Int64.lt_iff_toInt_lt, hst.remaining, hpool, Weighted.total_cons, Int64.toInt_zero]
  omega

/-! ### Draws that may be anything in range -/

/-- `rand.IntN`, with the values it returns given in advance: the `k`-th draw below `n` is `ρ k n`.
It panics if there is nothing below `n`. -/
def intN (ρ : ℕ → Int64 → Int64) (n : Int64) : StateT ℕ Option Int64 := fun k ↦
  if 0 < n then some (ρ k n, k + 1) else none

/-- The draws are in range. -/
def InRange (ρ : ℕ → Int64 → Int64) : Prop := ∀ k n, 0 < n → 0 ≤ ρ k n ∧ ρ k n < n

variable {ρ : ℕ → Int64 → Int64}

/-- **The loop ends without a panic**, with an empty pool. -/
theorem loop_intN (hfits : s.Fits) (hρ : InRange ρ) {n : ℕ} (hst : s.Exact st)
    (hn : st.pool.length ≤ n) (k : ℕ) :
    ∃ st' k', s.loop (intN ρ) n st k = some (st', k') ∧ s.Exact st' ∧ st'.pool = [] := by
  induction n generalizing st k with
  | zero => exact ⟨st, k, rfl, hst, List.eq_nil_of_length_eq_zero (by omega)⟩
  | succ n ih =>
    by_cases hpool : st.pool = []
    · refine ⟨st, k, ?_, hst, hpool⟩
      simp only [loop, hpool, List.isEmpty_nil, if_true]
      rfl
    · have hpos := hst.remaining_pos hfits hpool
      obtain ⟨h0, hr⟩ := hρ k st.remaining hpos
      have hlen : (s.take st (ρ k st.remaining)).pool.length ≤ n := by
        obtain ⟨hr0, hr1⟩ := hst.lt_total h0 hr
        have hlt := Weighted.pick_lt (w := s.w) (l := st.pool)
          (r := (ρ k st.remaining).toInt.toNat) (by omega)
        rw [take_eq hfits hst h0 hr, takeAt, List.length_eraseIdx_of_lt hlt]
        omega
      obtain ⟨st', k', hloop, hrest⟩ := ih (hst.take hfits h0 hr) hlen (k + 1)
      refine ⟨st', k', ?_, hrest⟩
      have hdraw : intN ρ st.remaining k = some (ρ k st.remaining, k + 1) := if_pos hpos
      have hempty : st.pool.isEmpty = false := by simpa using hpool
      simp only [loop, hempty, Bool.false_eq_true, if_false]
      show (intN ρ st.remaining k).bind (fun x ↦ s.loop (intN ρ) n (s.take st x.1) x.2) = _
      rw [hdraw]
      exact hloop

/-- The selector but for its buffers. -/
structure Same (s s' : QueueSelector) : Prop where
  names : s'.names = s.names
  weights : s'.weights = s.weights
  total : s'.total = s.total
  strict : s'.strict = s.strict

theorem Same.fits {s' : QueueSelector} (h : Same s s') (hfits : s.Fits) : s'.Fits := by
  have hweight : s'.weight = s.weight := funext fun i ↦ by rw [weight, weight, h.weights]
  have hw : s'.w = s.w := funext fun i ↦ by rw [w, w, hweight]
  exact ⟨by rw [h.names, hweight]; exact hfits.pos, by rw [h.names, hw, h.total]; exact hfits.total⟩

/-- **A call returns a permutation of the queues**: always if there is nothing to decide, and else
because the loop does. -/
theorem next_intN (hfits : s.strict = true ∨ s.names.length < 2 ∨ s.Fits) (hρ : InRange ρ) (k : ℕ) :
    ∃ order s' k', s.next (intN ρ) k = some ((order, s'), k') ∧ order.Perm s.names ∧ Same s s' := by
  rw [next]
  by_cases hdecided : (s.strict || decide (s.names.length < 2)) = true
  · rw [if_pos hdecided]
    exact ⟨s.names, s, k, rfl, .rfl, rfl, rfl, rfl, rfl⟩
  · rw [if_neg hdecided]
    rw [Bool.or_eq_true, decide_eq_true_eq, not_or] at hdecided
    have hfits : s.Fits := (hfits.resolve_left hdecided.1).resolve_left hdecided.2
    obtain ⟨st, k', hloop, hst, hpool⟩ :=
      loop_intN hfits hρ (Exact.start hfits) (n := s.names.length) (by simp [start]) k
    refine ⟨st.order, { s with order := st.order, pool := st.pool }, k', ?_, ?_, rfl, rfl, rfl, rfl⟩
    · show (s.loop (intN ρ) s.names.length s.start k).bind _ = _
      rw [hloop]
      rfl
    · simpa [hpool] using hst.order

theorem Same.trans {s' s'' : QueueSelector} (h : Same s s') (h' : Same s' s'') : Same s s'' :=
  ⟨h'.names.trans h.names, h'.weights.trans h.weights, h'.total.trans h.total,
    h'.strict.trans h.strict⟩

/-- And so do all calls, one after the other. -/
theorem calls_intN (hfits : s.strict = true ∨ s.names.length < 2 ∨ s.Fits) (hρ : InRange ρ)
    (n k : ℕ) :
    ∃ orders s' k', calls (intN ρ) n s k = some ((orders, s'), k') ∧ orders.length = n ∧
      (∀ order ∈ orders, order.Perm s.names) ∧ Same s s' := by
  induction n generalizing s k with
  | zero => exact ⟨[], s, k, rfl, rfl, by simp, rfl, rfl, rfl, rfl⟩
  | succ n ih =>
    obtain ⟨order, s₁, k₁, hnext, hperm, hsame⟩ := next_intN hfits hρ k
    have hfits₁ : s₁.strict = true ∨ s₁.names.length < 2 ∨ s₁.Fits := by
      rw [hsame.strict, hsame.names]
      exact hfits.imp_right (.imp_right hsame.fits)
    obtain ⟨orders, s₂, k₂, hcalls, hlen, hperms, hsame₂⟩ := ih hfits₁ k₁
    refine ⟨order :: orders, s₂, k₂, ?_, by rw [List.length_cons, hlen], ?_, hsame.trans hsame₂⟩
    · show (s.next (intN ρ) k).bind _ = _
      rw [hnext]
      show (calls (intN ρ) n s₁ k₁).bind _ = _
      rw [hcalls]
      rfl
    · intro order' hmem
      rcases List.mem_cons.1 hmem with rfl | hmem
      · exact hperm
      · rw [← hsame.names]
        exact hperms order' hmem

/-! ### Shares -/

/-- Distinct queues have distinct names. -/
theorem name_inj (hnames : s.names.Nodup) {i j : ℕ} (hi : i < s.names.length)
    (hj : j < s.names.length) : s.name i = s.name j ↔ i = j := by
  rw [name, name, List.getD_eq_getElem _ _ hi, List.getD_eq_getElem _ _ hj]
  exact hnames.getElem_inj_iff

/-- The draws below the weight of the pool are in range, and they pick as the exact walk does. -/
theorem take_ofNat (hfits : s.Fits) (hst : s.Exact st) {n : ℕ}
    (hn : n < Weighted.total s.w st.pool) :
    s.take st (.ofNat n) = s.takeAt st (Weighted.pick s.w st.pool n) := by
  have hmax := st.remaining.toInt_lt
  rw [hst.remaining] at hmax
  have hint : (Int64.ofNat n).toInt = n := Int64.toInt_ofNat_of_lt (by omega)
  have h0 : 0 ≤ Int64.ofNat n := by
    rw [Int64.le_iff_toInt_le, hint, Int64.toInt_zero]
    omega
  have hr : Int64.ofNat n < st.remaining := by
    rw [Int64.lt_iff_toInt_lt, hint, hst.remaining]
    omega
  rw [take_eq hfits hst h0 hr, hint, Int.toNat_natCast]

/-- **A queue is picked by as many draws as it weighs.** -/
theorem card_take (hfits : s.Fits) (hst : s.Exact st) (hnames : s.names.Nodup) {i : ℕ}
    (hi : i ∈ st.pool) :
    {n ∈ Finset.range st.remaining.toInt.toNat |
      (s.take st (.ofNat n)).order = st.order ++ [s.name i]}.card = s.w i := by
  obtain ⟨k, hk, rfl⟩ := List.getElem_of_mem hi
  rw [hst.remaining, Int.toNat_natCast,
    ← Weighted.card_pick (w := s.w) (List.getElem?_eq_getElem hk)]
  congr 1
  refine Finset.filter_congr fun n hn ↦ ?_
  have hlt := Weighted.pick_lt (Finset.mem_range.1 hn)
  rw [take_ofNat hfits hst (Finset.mem_range.1 hn), takeAt, List.append_cancel_left_eq,
    List.cons.injEq, eq_self_iff_true, and_true, List.getD_eq_getElem _ _ hlt,
    name_inj hnames (hst.range _ (List.getElem_mem hlt)) (hst.range _ (List.getElem_mem hk))]
  exact hst.nodup.getElem_inj_iff

/-! ### Uniform draws -/

/-- `rand.IntN` as a uniform draw. -/
noncomputable def uniform (n : Int64) : PMF Int64 :=
  if hn : 0 < n.toInt.toNat then
    (PMF.uniformOfFinset (Finset.range n.toInt.toNat)
      (Finset.nonempty_range_iff.2 hn.ne')).map .ofNat
  else PMF.pure 0

/-- An order that a stage has begun is kept to the end. -/
theorem prefix_of_loop {n : ℕ} {st' : Stage} (h : st' ∈ (s.loop uniform n st).support) :
    st.order <+: st'.order := by
  have hpure : ∀ {st : Stage}, st' ∈ (PMF.pure st).support → st.order <+: st'.order := by
    intro st h
    rw [(PMF.mem_support_pure_iff _ _).1 h]
  induction n generalizing st with
  | zero => exact hpure h
  | succ n ih =>
    rw [loop] at h
    split_ifs at h
    · exact hpure h
    · obtain ⟨r, -, hr⟩ := (PMF.mem_support_bind_iff _ _ _).1 h
      exact (List.prefix_append _ _).trans (ih hr)

/-- A stage that has begun another order does not lead to this one. -/
theorem loop_order_eq_zero {n : ℕ} {l : List String} (h : ¬ st.order <+: l) :
    (s.loop uniform n st).map Stage.order l = 0 := by
  rw [PMF.apply_eq_zero_iff, PMF.mem_support_map_iff]
  rintro ⟨st', hst', rfl⟩
  exact h (prefix_of_loop hst')

/-- The first draw of a stage, and what comes after it: each queue with its share. -/
theorem loop_succ_apply (hfits : s.Fits) (hst : s.Exact st) (hpool : st.pool ≠ []) (n : ℕ)
    (l : List String) :
    (s.loop uniform (n + 1) st).map Stage.order l =
      ∑ k : Fin st.pool.length, (s.w (st.pool.get k) : ℝ≥0∞) / Weighted.total s.w st.pool *
        (s.loop uniform n (s.takeAt st k)).map Stage.order l := by
  have hpos : 0 < st.remaining.toInt.toNat := by
    have := Int64.lt_iff_toInt_lt.1 (hst.remaining_pos hfits hpool)
    rw [Int64.toInt_zero] at this
    omega
  have hempty : st.pool.isEmpty = false := by simpa using hpool
  have hloop : s.loop uniform (n + 1) st =
      (uniform st.remaining).bind fun r ↦ s.loop uniform n (s.take st r) := by
    simp only [loop, hempty, Bool.false_eq_true, if_false]
    rfl
  have hdraws : st.remaining.toInt.toNat = Weighted.total s.w st.pool := by
    rw [hst.remaining, Int.toNat_natCast]
  rw [hloop, uniform, dif_pos hpos, PMF.bind_map, PMF.map_bind, PMF.bind_apply,
    tsum_eq_sum (s := Finset.range st.remaining.toInt.toNat) fun r hr ↦ by
      rw [PMF.uniformOfFinset_apply_of_notMem _ hr, zero_mul]]
  -- every draw has the same weight, and the draws are grouped by what they pick
  have hterm : ∀ r ∈ Finset.range st.remaining.toInt.toNat,
      PMF.uniformOfFinset _ (Finset.nonempty_range_iff.2 hpos.ne') r *
        (((fun r ↦ s.loop uniform n (s.take st r)) ∘ Int64.ofNat) r).map Stage.order l =
      (Weighted.total s.w st.pool : ℝ≥0∞)⁻¹ *
        (s.loop uniform n (s.takeAt st (Weighted.pick s.w st.pool r))).map Stage.order l := by
    intro r hr
    rw [PMF.uniformOfFinset_apply_of_mem _ hr, Finset.card_range, hdraws, Function.comp_apply,
      take_ofNat hfits hst (hdraws ▸ Finset.mem_range.1 hr)]
  rw [Finset.sum_congr rfl hterm, ← Finset.mul_sum, hdraws, Weighted.sum_pick st.pool
    fun k ↦ (s.loop uniform n (s.takeAt st k)).map Stage.order l, Finset.mul_sum]
  refine Finset.sum_congr rfl fun k _ ↦ ?_
  rw [← mul_assoc, ENNReal.div_eq_inv_mul]

/-- The weights of names are the weights of their indices. -/
theorem total_map_name {v : String → ℕ} (hv : ∀ i < s.names.length, v (s.name i) = s.w i)
    {pool : List ℕ} (hrange : ∀ i ∈ pool, i < s.names.length) :
    Weighted.total v (pool.map s.name) = Weighted.total s.w pool := by
  rw [Weighted.total, Weighted.total, List.map_map]
  exact congrArg List.sum (List.map_congr_left fun i hi ↦ hv i (hrange i hi))

/-- **The distribution of the orders.** The chance of an order of what is in the pool is the product
of the shares. -/
theorem loop_apply (hfits : s.Fits) (hnames : s.names.Nodup) {v : String → ℕ}
    (hv : ∀ i < s.names.length, v (s.name i) = s.w i) {n : ℕ} (hst : s.Exact st)
    (hn : st.pool.length ≤ n) {p : List String} (hp : p.Perm (st.pool.map s.name)) :
    (s.loop uniform n st).map Stage.order (st.order ++ p) = Weighted.chance v p := by
  induction n generalizing st p with
  | zero =>
    have hpool : st.pool = [] := List.eq_nil_of_length_eq_zero (by omega)
    obtain rfl : p = [] := by simpa [hpool] using hp
    rw [List.append_nil]
    show ((PMF.pure st).map Stage.order) st.order = 1
    rw [PMF.pure_map, PMF.pure_apply_self]
  | succ n ih =>
    by_cases hpool : st.pool = []
    · obtain rfl : p = [] := by simpa [hpool] using hp
      have hloop : s.loop uniform (n + 1) st = PMF.pure st := by
        simp only [loop, hpool, List.isEmpty_nil, if_true]
        rfl
      rw [hloop, List.append_nil, PMF.pure_map, PMF.pure_apply_self]
      rfl
    · obtain ⟨q, p, rfl⟩ : ∃ q p', p = q :: p' := by
        refine List.exists_cons_of_ne_nil fun hnil ↦ hpool ?_
        simpa [hnil] using hp
      obtain ⟨i, hi, rfl⟩ := List.mem_map.1 (hp.mem_iff.1 List.mem_cons_self)
      obtain ⟨k, hk, rfl⟩ := List.getElem_of_mem hi
      have hgetD : st.pool.getD k 0 = st.pool[k] := List.getD_eq_getElem _ _ hk
      have htotal : Weighted.total v (s.name st.pool[k] :: p) = Weighted.total s.w st.pool := by
        rw [Weighted.total_perm v hp, total_map_name hv hst.range]
      have hrest : p.Perm ((s.takeAt st k).pool.map s.name) := by
        have hperm : (st.pool[k] :: st.pool.eraseIdx k).Perm st.pool :=
          List.getElem_cons_eraseIdx_perm hk
        exact (hp.trans (hperm.map s.name).symm).cons_inv
      have horder : (s.takeAt st k).order ++ p = st.order ++ s.name st.pool[k] :: p := by
        rw [takeAt, hgetD, List.append_assoc, List.singleton_append]
      have hlen : (s.takeAt st k).pool.length ≤ n := by
        rw [takeAt, List.length_eraseIdx_of_lt hk]
        omega
      rw [loop_succ_apply hfits hst hpool,
        Finset.sum_eq_single (⟨k, hk⟩ : Fin st.pool.length) ?_ (by simp), ← horder,
        ih (hst.takeAt hfits hk) hlen hrest, Weighted.chance, htotal, hv _ (hst.range _ hi)]
      · rfl
      -- a stage with another queue in this place does not lead to this order
      · intro k' _ hne
        rw [loop_order_eq_zero, mul_zero]
        rw [takeAt, List.prefix_append_right_inj, List.getD_eq_getElem _ _ k'.2,
          List.cons_prefix_cons,
          name_inj hnames (hst.range _ (List.getElem_mem k'.2)) (hst.range _ hi)]
        rintro ⟨heq, -⟩
        exact hne (Fin.ext (hst.nodup.getElem_inj_iff.1 heq))

/-! ### New selectors -/

section

variable {names : List String} {weights : Option (Table String Int64)} {strict : Bool}

/-- The sum of the weights, over the unbounded integers. -/
def exactSum (names : List String) (weights : Option (Table String Int64)) : ℤ :=
  (names.map fun q ↦ (weightOf weights q).toInt).sum

/-- The total of a selector is that sum, wrapped. -/
theorem toInt_foldl_weightOf (total : Int64) :
    (names.foldl (fun total q ↦ total + weightOf weights q) total).toInt =
      (total.toInt + exactSum names weights).bmod (2 ^ 64) := by
  induction names generalizing total with
  | nil =>
    rw [List.foldl_nil, exactSum, List.map_nil, List.sum_nil, add_zero]
    exact (Word.bmod_of_fits total.le_toInt total.toInt_lt).symm
  | cons q names ih =>
    rw [List.foldl_cons, ih, Int64.toInt_add, Int.bmod_add_bmod, exactSum, exactSum, List.map_cons,
      List.sum_cons, add_assoc]

theorem weight_newQueueSelector {i : ℕ} (hi : i < names.length) :
    (newQueueSelector names weights strict).weight i =
      weightOf weights ((newQueueSelector names weights strict).name i) := by
  rw [weight, name, newQueueSelector, List.getD_eq_getElem _ _ (by simpa using hi),
    List.getD_eq_getElem _ _ hi, List.getElem_map]

/-- The indices of a new selector and their weights are the queues and theirs. -/
theorem sum_weight_newQueueSelector (f : Int64 → ℤ) :
    ((List.range names.length).map fun i ↦
      f ((newQueueSelector names weights strict).weight i)).sum =
      (names.map fun q ↦ f (weightOf weights q)).sum := by
  congr 1
  refine List.ext_getElem (by simp) fun i hi _ ↦ ?_
  have hi : i < names.length := by simpa using hi
  rw [List.getElem_map, List.getElem_map, List.getElem_range, weight_newQueueSelector hi, name,
    newQueueSelector, List.getD_eq_getElem _ _ hi]

/-- A sum that fits is what the selector has. -/
theorem toInt_total (hpos : ∀ q ∈ names, 1 ≤ weightOf weights q)
    (hsum : exactSum names weights < 2 ^ 63) :
    (newQueueSelector names weights strict).total.toInt = exactSum names weights := by
  have hnonneg : 0 ≤ exactSum names weights := by
    refine List.sum_nonneg ?_
    simp only [List.forall_mem_map]
    exact fun q hq ↦ (by decide : (0 : ℤ) ≤ (1 : Int64).toInt).trans
      (Int64.le_iff_toInt_le.1 (hpos q hq))
  rw [newQueueSelector, toInt_foldl_weightOf, Int64.toInt_zero, zero_add,
    Word.bmod_of_fits (by omega) hsum]

/-- **A new selector fits** if its weights are positive and their sum is below `2 ^ 63`. -/
theorem fits_newQueueSelector (hpos : ∀ q ∈ names, 1 ≤ weightOf weights q)
    (hsum : exactSum names weights < 2 ^ 63) : (newQueueSelector names weights strict).Fits := by
  have hweight : ∀ q ∈ names, 0 < (weightOf weights q).toInt := fun q hq ↦
    lt_of_lt_of_le (by decide) (Int64.le_iff_toInt_le.1 (hpos q hq))
  have hpos' : ∀ i < names.length,
      0 < ((newQueueSelector names weights strict).weight i).toInt := by
    intro i hi
    rw [weight_newQueueSelector hi, name, newQueueSelector, List.getD_eq_getElem _ _ hi]
    exact hweight _ (List.getElem_mem hi)
  refine ⟨hpos', ?_⟩
  rw [toInt_total hpos hsum, exactSum, ← sum_weight_newQueueSelector, Weighted.total,
    Nat.cast_list_sum, List.map_map]
  refine congrArg List.sum (List.map_congr_left fun i hi ↦ ?_)
  exact (Int.toNat_of_nonneg (hpos' i (List.mem_range.1 hi)).le).symm

/-- The weight of a queue, as a number. -/
def shareOf (weights : Option (Table String Int64)) (q : String) : ℕ :=
  (weightOf weights q).toInt.toNat

theorem Same.shareOf_name (hs : Same (newQueueSelector names weights strict) s) {i : ℕ}
    (hi : i < s.names.length) : shareOf weights (s.name i) = s.w i := by
  have hi' : i < names.length := by rwa [hs.names] at hi
  rw [shareOf, w, weight, name, hs.weights, hs.names]
  exact congrArg (fun w : Int64 ↦ w.toInt.toNat) (weight_newQueueSelector hi').symm

/-- **Priority shares are exact.** For distinct queues with positive weights whose sum fits, and
whatever earlier calls left in the buffers: at every stage of a call each queue in the pool is
picked by exactly as many of the draws as it weighs; with uniform draws an order is returned with
the product of the shares as its probability; and a queue comes first for exactly its weight of the
first draws, which is at least one of them. -/
theorem priority_shares_exact (hdistinct : names.Nodup) (hlen : 2 ≤ names.length)
    (hpos : ∀ q ∈ names, 1 ≤ weightOf weights q) (hsum : exactSum names weights < 2 ^ 63)
    (hs : Same (newQueueSelector names weights false) s) :
    (∀ st, s.Reached st → ∀ i ∈ st.pool,
      {n ∈ Finset.range st.remaining.toInt.toNat |
        (s.take st (.ofNat n)).order = st.order ++ [s.name i]}.card =
        shareOf weights (s.name i)) ∧
    (∀ p, p.Perm names → (s.next uniform).map Prod.fst p =
      ∏ k : Fin p.length, (shareOf weights (p.get k) : ℝ≥0∞) /
        ((p.drop k).map (shareOf weights)).sum) ∧
    ∀ q ∈ names,
      {n ∈ Finset.range (exactSum names weights).toNat |
        (s.take s.start (.ofNat n)).order = [q]}.card = shareOf weights q ∧
      1 ≤ shareOf weights q := by
  have hnew : (newQueueSelector names weights false).Fits := fits_newQueueSelector hpos hsum
  have hfits : s.Fits := hs.fits hnew
  have hnames : s.names = names := hs.names
  have hnodup : s.names.Nodup := hnames ▸ hdistinct
  have hcard : ∀ st, s.Exact st → ∀ i ∈ st.pool,
      {n ∈ Finset.range st.remaining.toInt.toNat |
        (s.take st (.ofNat n)).order = st.order ++ [s.name i]}.card = shareOf weights (s.name i) :=
    fun st hst i hi ↦ by
      rw [card_take hfits hst hnodup hi, hs.shareOf_name (hst.range i hi)]
  refine ⟨fun st hst ↦ hcard st (hst.exact hfits), fun p hp ↦ ?_, fun q hq ↦ ⟨?_, ?_⟩⟩
  · have hnext : (s.next uniform).map Prod.fst =
        (s.loop uniform s.names.length s.start).map Stage.order := by
      have hundecided : (s.strict || decide (s.names.length < 2)) = false := by
        rw [hs.strict, hnames, newQueueSelector, Bool.false_or, decide_eq_false_iff_not]
        omega
      rw [next, hundecided]
      show ((s.loop uniform s.names.length s.start).bind _).map Prod.fst = _
      rw [PMF.map_bind]
      exact congrArg (PMF.bind _) (funext fun st ↦ PMF.pure_map _ _)
    have hp' : p.Perm (s.start.pool.map s.name) := by
      have := (Exact.start hfits).order
      rw [hnames] at this
      exact hp.trans this.symm
    have happly := loop_apply hfits hnodup (fun i hi ↦ hs.shareOf_name hi) (Exact.start hfits)
      (n := s.names.length) (by simp [start]) hp'
    rw [hnext, show p = s.start.order ++ p from rfl, happly, Weighted.chance_eq_prod]
    rfl
  · obtain ⟨i, hi, rfl⟩ := List.getElem_of_mem (hnames ▸ hq : q ∈ s.names)
    have hname : s.names[i] = s.name i := (List.getD_eq_getElem _ _ hi).symm
    have htotal : s.start.remaining.toInt = exactSum names weights := by
      rw [start, hs.total, toInt_total hpos hsum]
    rw [hname, ← htotal, ← hcard s.start (Exact.start hfits) i (List.mem_range.2 hi)]
    rfl
  · have := Int64.le_iff_toInt_le.1 (hpos q hq)
    rw [shareOf]
    have hone : (1 : Int64).toInt = 1 := rfl
    omega

end

/-- The weights of the documentation: of the ten first draws, six put the critical queue first. -/
theorem priority_shares_exact_documented :
    ∃ weights : Option (Table String Int64), exactSum ["critical", "default", "low"] weights = 10 ∧
      {n ∈ Finset.range 10 |
        ((newQueueSelector ["critical", "default", "low"] weights false).take
          (newQueueSelector ["critical", "default", "low"] weights false).start
            (.ofNat n)).order = ["critical"]}.card = 6 := by
  let weights : Option (Table String Int64) :=
    some (((∅ : Table String Int64).insert "critical" 6).insert "default" 3)
  have hsum : exactSum ["critical", "default", "low"] weights = 10 := by decide
  have hsame : Same (newQueueSelector ["critical", "default", "low"] weights false)
      (newQueueSelector ["critical", "default", "low"] weights false) := ⟨rfl, rfl, rfl, rfl⟩
  have hshares := priority_shares_exact (by decide) (by decide) (by decide) (by rw [hsum]; decide)
    hsame
  have hfirst := (hshares.2.2 "critical" (by decide)).1
  rw [hsum] at hfirst
  exact ⟨weights, hsum, hfirst⟩

end QueueSelector

end TaskQueue
