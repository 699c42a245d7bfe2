import TaskQueue.Cron.Schedule
import TaskQueue.Data.ClockChange

/-!
# Schedules in a time zone

`Next` computes in the location of its argument. Here a location is given as Go keeps it: a table of
instants at which the offset from UTC changes. What Go's `time` package does with the table is
assumed, and is this: the fields of a time read the **wall clock**, which is the instant moved by
the offset in force; and `time.Date` goes back from a wall clock to an instant by looking up the
offset at the wall clock's seconds **read as UTC**, keeping it if the instant it leads to lies in
that same period, and otherwise taking the offset in force at that instant. As the table is sorted,
that is the offset at that instant in either case (`resolved_eq`).

So a wall clock that shows twice, or never, is resolved to one instant or another, and the jumps of
the search, which rebuild a time from its fields, need not go forward. The loop ends if they all do
(`searchIn_ends`), as they do in a location without transitions (`lt_of_round_fixed`).
-/

namespace TaskQueue.Cron

/-! ### Zones -/

/-- A stretch of time with one offset from UTC, in seconds. It has no start before the first
transition and no end after the last. -/
structure Period where
  offset : ℤ
  start : Option ℤ
  stop : Option ℤ

/-- Whether an instant lies in the period. -/
def Period.contains (p : Period) (sec : ℤ) : Bool :=
  p.start.all (fun start ↦ decide (start ≤ sec)) && p.stop.all fun stop ↦ decide (sec < stop)

/-- A time zone: the offset it begins with, and the instants at which a new offset comes into
force. -/
structure Zone where
  first : ℤ
  transitions : List (ℤ × ℤ)
  sorted : (transitions.map Prod.fst).Pairwise (· < ·)

namespace Zone

/-- The period of an instant, among those from `start` on. -/
def lookupFrom (start : Option ℤ) (offset : ℤ) : List (ℤ × ℤ) → ℤ → Period
  | [], _ => ⟨offset, start, none⟩
  | (when_, offset') :: rest, sec =>
    if sec < when_ then ⟨offset, start, some when_⟩ else lookupFrom (some when_) offset' rest sec

variable (z : Zone)

/-- The `lookup` of a location. -/
def lookup (sec : ℤ) : Period := lookupFrom none z.first z.transitions sec

/-- The offset in force at an instant. -/
def offset (t : Time) : Duration := (z.lookup (t / second)).offset * second

/-- The wall clock at an instant, as the instant at which UTC would show the same. -/
def wall (t : Time) : Time := t + z.offset t

/-- The offset by which `time.Date` goes back from a wall clock. -/
def resolved (w : Time) : Duration :=
  let sec := w / second
  let p := z.lookup sec
  let utc := sec - p.offset
  (if p.contains utc then p.offset else (z.lookup utc).offset) * second

/-- The location. -/
def location : Location where
  clock t := Location.utc.clock (z.wall t)
  date w := Location.utc.date w - z.resolved (Location.utc.date w)

/-- A zone without transitions. -/
def fixed (offset : ℤ) : Zone := ⟨offset, [], .nil⟩

theorem location_fixed_zero : (fixed 0).location = Location.utc := by
  have hwall : ∀ t, (fixed 0).wall t = t := fun t ↦ by
    simp [wall, offset, lookup, lookupFrom, fixed]
  have hresolved : ∀ w, (fixed 0).resolved w = 0 := fun w ↦ by
    simp [resolved, lookup, lookupFrom, fixed]
  simp only [location, hwall, hresolved, sub_zero]

/-! ### The way back from a wall clock -/

/-- A period that is looked up after a transition does not begin before it. -/
theorem le_start_lookupFrom (sec : ℤ) : ∀ {transitions : List (ℤ × ℤ)} {when_ : ℤ} (offset : ℤ),
    (when_ :: transitions.map Prod.fst).Pairwise (· < ·) →
    ∃ start, when_ ≤ start ∧ (lookupFrom (some when_) offset transitions sec).start = some start
  | [], when_, _, _ => ⟨when_, le_rfl, rfl⟩
  | (when', offset') :: rest, when_, offset, hsorted => by
    rw [lookupFrom]
    split_ifs
    · exact ⟨when_, le_rfl, rfl⟩
    · rw [List.map_cons, List.pairwise_cons] at hsorted
      obtain ⟨start, hle, hstart⟩ := le_start_lookupFrom sec offset' hsorted.2
      exact ⟨start, (hsorted.1 when' List.mem_cons_self).le.trans hle, hstart⟩

/-- What lies in the period of an instant has the same period. -/
theorem lookupFrom_of_contains {sec sec' : ℤ} : ∀ {transitions : List (ℤ × ℤ)} {start : Option ℤ}
    {offset : ℤ}, (transitions.map Prod.fst).Pairwise (· < ·) →
    (lookupFrom start offset transitions sec).contains sec' = true →
    lookupFrom start offset transitions sec' = lookupFrom start offset transitions sec
  | [], _, _, _, _ => rfl
  | (when_, offset') :: rest, start, offset, hsorted, hmem => by
    rw [List.map_cons] at hsorted
    by_cases hlt : sec < when_
    · rw [lookupFrom, if_pos hlt, Period.contains, Bool.and_eq_true] at hmem
      rw [lookupFrom, lookupFrom, if_pos hlt, if_pos (of_decide_eq_true hmem.2)]
    · rw [lookupFrom, if_neg hlt] at hmem
      have hin := hmem
      obtain ⟨start', hle, hstart⟩ := le_start_lookupFrom sec offset' hsorted
      rw [Period.contains, hstart, Bool.and_eq_true] at hin
      have hle' : start' ≤ sec' := of_decide_eq_true hin.1
      rw [lookupFrom, lookupFrom, if_neg hlt, if_neg (not_lt.2 (hle.trans hle'))]
      exact lookupFrom_of_contains (List.pairwise_cons.1 hsorted).2 hmem

/-- **`time.Date` takes the offset in force** at the instant to which the offset leads that it finds
at the wall clock. -/
theorem resolved_eq (w : Time) : z.resolved w = z.offset (w - z.offset w) := by
  have hsec : (w - z.offset w) / second = w / second - (z.lookup (w / second)).offset :=
    Int.sub_mul_ediv_right _ _ (by decide)
  rw [resolved, offset, hsec]
  split_ifs with hmem
  · have hsame : z.lookup (w / second - (z.lookup (w / second)).offset) = z.lookup (w / second) :=
      lookupFrom_of_contains z.sorted hmem
    rw [hsame]
  · rfl

/-! ### Changes -/

variable {z} {lo hi : ℤ}

variable (z) in
/-- From `lo` to `hi`, the offset changes as `c` says and not otherwise. -/
def ChangesOnce (c : ClockChange) (lo hi : ℤ) : Prop :=
  ∀ t : ℤ, lo ≤ t → t < hi → z.offset t = c.offset t

/-- Behind the transitions up to an instant, its offset is looked up among the others. -/
theorem offset_lookupFrom_append {sec : ℤ} (rest : List (ℤ × ℤ)) :
    ∀ {past : List (ℤ × ℤ)} (start : Option ℤ) (offset : ℤ), (∀ p ∈ past, p.1 ≤ sec) →
    ∃ start', (lookupFrom start offset (past ++ rest) sec).offset =
      (lookupFrom start' ((past.map Prod.snd).getLastD offset) rest sec).offset
  | [], start, _, _ => ⟨start, rfl⟩
  | (when_, offset') :: past, start, offset, hpast => by
    rw [List.cons_append, lookupFrom, if_neg (not_lt.2 (hpast _ List.mem_cons_self)),
      List.map_cons, List.getLastD_cons]
    exact offset_lookupFrom_append rest _ _ fun p hp ↦ hpast p (List.mem_cons_of_mem _ hp)

/-- Before the first transition it is the offset one begins with. -/
theorem offset_lookupFrom_of_lt {sec offset : ℤ} {start : Option ℤ} {rest : List (ℤ × ℤ)}
    (hrest : ∀ p ∈ rest, sec < p.1) : (lookupFrom start offset rest sec).offset = offset := by
  rcases rest with - | ⟨p, rest⟩
  · rfl
  · rw [lookupFrom, if_pos (hrest p List.mem_cons_self)]

theorem lt_second_mul_iff {t : Time} {sec : ℤ} : t < sec * second ↔ t / second < sec :=
  (Int.ediv_lt_iff_lt_mul (by decide)).symm

/-- **A transition of the table** with no other one nearby. -/
theorem changesOnce_of_transitions {past rest : List (ℤ × ℤ)} {when_ after : ℤ}
    (htable : z.transitions = past ++ (when_, after) :: rest)
    (hpast : ∀ p ∈ past, p.1 * second ≤ lo) (hrest : ∀ p ∈ rest, hi ≤ p.1 * second) :
    z.ChangesOnce ⟨when_ * second, (past.map Prod.snd).getLastD z.first * second,
      after * second⟩ lo hi := by
  intro t hlo hhi
  have hle : ∀ p ∈ past, p.1 ≤ t / second := fun p hp ↦
    Int.le_ediv_of_mul_le (by decide) ((hpast p hp).trans hlo)
  obtain ⟨start, heq⟩ := offset_lookupFrom_append ((when_, after) :: rest) none z.first hle
  rw [offset, lookup, htable, heq, lookupFrom, ClockChange.offset]
  simp only [lt_second_mul_iff]
  split_ifs
  · rfl
  · rw [offset_lookupFrom_of_lt fun p hp ↦ lt_second_mul_iff.1 (hhi.trans_le (hrest p hp))]

end Zone

namespace Schedule

variable (s : Schedule)

/-! ### The search in a location -/

/-- The loop of `Next` in a location, for at most so many rounds. -/
def searchIn (loc : Location) (limit : Time) : ℕ → Time → Option Time
  | 0, _ => none
  | n + 1, t =>
    if t < limit then
      match s.round loc t with
      | some t' => searchIn loc limit n t'
      | none => some t
    else some zeroTime

/-- `Next` in a location, if its loop ends within so many rounds. -/
def nextIn (loc : Location) (rounds : ℕ) (t : Time) : Option Time :=
  if 0 < s.every then some (t + s.every)
  else s.searchIn loc (startMinute t + searchLimit) rounds (startMinute t)

/-- The instants that the loop comes to. -/
def Reaches (s : Schedule) (loc : Location) (limit : Time) : Time → Time → Prop :=
  Relation.ReflTransGen fun u u' ↦ u < limit ∧ s.round loc u = some u'

variable {s} {t t' limit : ℤ} {loc : Location}

/-- **The loop ends if every round it comes to goes forward.** -/
theorem searchIn_ends (hahead : ∀ u u' : ℤ, s.Reaches loc limit t u → u < limit →
    s.round loc u = some u' → u < u') : ∃ n r, s.searchIn loc limit n t = some r := by
  generalize hm : (limit - t).toNat = m
  induction m using Nat.strong_induction_on generalizing t with
  | _ m ih =>
    by_cases hlt : t < limit
    · rcases hround : s.round loc t with - | t'
      · exact ⟨1, t, by simp [searchIn, hlt, hround]⟩
      · have hstep : s.Reaches loc limit t t' := .single ⟨hlt, hround⟩
        have hgo := hahead t t' .refl hlt hround
        obtain ⟨n, r, hr⟩ := ih (limit - t').toNat (by omega)
          (fun u u' hu ↦ hahead u u' (hstep.trans hu)) rfl
        exact ⟨n + 1, r, by simp [searchIn, hlt, hround, hr]⟩
    · exact ⟨1, zeroTime, by simp [searchIn, hlt]⟩

/-- `Next` ends if every round of its loop goes forward. -/
theorem nextIn_ends (hahead : ∀ u u' : ℤ, s.Reaches loc (startMinute t + searchLimit)
    (startMinute t) u → u < startMinute t + searchLimit → s.round loc u = some u' → u < u') :
    ∃ n r, s.nextIn loc n t = some r := by
  unfold nextIn
  split_ifs
  · exact ⟨0, _, rfl⟩
  · exact searchIn_ends hahead

/-- In UTC the loop ends, with what `Next` returns there. -/
theorem nextIn_utc (s : Schedule) (t : Time) :
    ∃ n, s.nextIn (Zone.fixed 0).location n t = some (s.next t) := by
  have hsearch : ∀ limit t, ∃ n, s.searchIn Location.utc limit n t = some (s.search limit t) := by
    intro limit t
    fun_induction search s limit t with
    | case1 t hlt t' hround ih =>
      obtain ⟨n, hn⟩ := ih
      exact ⟨n + 1, by rw [searchIn, if_pos hlt, hround]; exact hn⟩
    | case2 t hlt hround => exact ⟨1, by rw [searchIn, if_pos hlt, hround]⟩
    | case3 t hlt => exact ⟨1, by rw [searchIn, if_neg hlt]⟩
  rw [Zone.location_fixed_zero]
  unfold nextIn next
  split_ifs
  · exact ⟨0, rfl⟩
  · exact hsearch _ _

/-- Without transitions a location is UTC, with another origin. -/
theorem round_fixed (c : ℤ) (t : Time) : s.round (Zone.fixed c).location t =
    (s.round Location.utc (t + c * second)).map (· - c * second) := by
  have hdate : ∀ w, (Zone.fixed c).location.date w = Location.utc.date w - c * second :=
    fun _ ↦ rfl
  have hclock : ∀ t, (Zone.fixed c).location.clock t = Location.utc.clock (t + c * second) :=
    fun _ ↦ rfl
  simp only [round, Location.addDate, hdate, hclock, sub_add_cancel]
  split_ifs
  · rfl
  · rfl
  · rw [Option.map_some, sub_add_eq_add_sub]
  · rw [Option.map_some, add_sub_right_comm, add_sub_cancel_right]
  · rfl

/-- **In a location without transitions every round goes forward.** -/
theorem lt_of_round_fixed {c : ℤ} (hround : s.round (Zone.fixed c).location t = some t') :
    t < t' := by
  rw [round_fixed] at hround
  obtain ⟨u, hu, rfl⟩ := Option.map_eq_some_iff.1 hround
  exact lt_sub_iff_add_lt.2 (lt_of_round hu)

end Schedule

end TaskQueue.Cron
