import TaskQueue.Cron.Grammar

/-!
# Ranges that are not what they say

Two forms of a term are read otherwise than they are meant.

* **Sunday as 7.** The alias is resolved at each end of a range before the range is looked at, so a
  range that ends in 7 ends in 0. It is refused as inverted unless it begins with a Sunday too, and
  one from 0 to 7 is Sunday alone. `sunday_iff` says for which lists of documented forms the field
  of the days of the week is nevertheless what its terms denote.
* **A bare value with a step** means the range from there to the end of the field, but not for the
  step 1: then it is the value alone (`stepped_value_iff`).
-/

namespace TaskQueue.Cron

variable {f : FieldSpec} {t s s' st : List Char} {D : Set ℕ} {a b v n : ℕ}

/-! ### Days of the week -/

/-- A day of the week as documented: a number from 0 to 7, or a name in any letter case. -/
def DowValue (s : List Char) (v : ℕ) : Prop :=
  Decimal s v ∧ v ≤ 7 ∨ (s.map Char.toLower, v) ∈ dayNames

theorem DowValue.le (h : DowValue s v) : v ≤ 7 := by
  rcases h with ⟨-, hle⟩ | hnamed
  · exact hle
  · have hday : v ≤ 6 := (dowSpec.named _ hnamed).2
    omega

/-- The parser takes a day of the week for its remainder. -/
theorem DowValue.accepts (h : DowValue s v) (hs : ∀ c ∈ s, Plain c) :
    Accepts dowSpec s (v % 7) := by
  rcases h with ⟨hdec, hle⟩ | hnamed
  · refine .inr ⟨v, hdec, ?_⟩
    split_ifs with hsunday
    · rw [hsunday.2]
    · have hne : v ≠ 7 := fun h ↦ hsunday ⟨rfl, h⟩
      exact ⟨Nat.zero_le v, show v ≤ 6 by omega, Nat.mod_eq_of_lt (by omega)⟩
  · have hday : v ≤ 6 := (dowSpec.named _ hnamed).2
    rw [Nat.mod_eq_of_lt (by omega)]
    refine .inl ?_
    rw [Named, map_toLower hs]
    exact hnamed

theorem DowValue.unique {v' : ℕ} (h : DowValue s v) (h' : DowValue s v') (hs : ∀ c ∈ s, Plain c) :
    v = v' := by
  have hnamed : ∀ {v}, (s.map Char.toLower, v) ∈ dayNames → Named dowSpec s v := by
    intro v hv
    rw [Named, map_toLower hs]
    exact hv
  rcases h with ⟨hdec, -⟩ | hname <;> rcases h' with ⟨hdec', -⟩ | hname'
  · exact hdec.unique hdec'
  · exact absurd (hnamed hname') hdec.not_named
  · exact absurd (hnamed hname) hdec'.not_named
  · exact Accepts.unique (.inl (hnamed hname)) (.inl (hnamed hname'))

/-- The term is a range between two texts, with a step. -/
inductive IsRange : List Char → List Char → List Char → ℕ → Prop
  | plain {s s' : List Char} : IsRange (s ++ '-' :: s') s s' 1
  | stepped {s s' st : List Char} {n : ℕ} (hst : Step st n) :
      IsRange ((s ++ '-' :: s') ++ '/' :: st) s s' n

theorem IsRange.dash (h : IsRange t s s' n) : '-' ∈ t := by
  cases h <;> simp

theorem IsRange.subset (h : IsRange t s s' n) : s ⊆ t ∧ s' ⊆ t := by
  cases h with
  | plain => exact ⟨by simp, by simp⟩
  | stepped hst => exact ⟨by simp, fun c hc ↦ by simp [hc]⟩

/-- How the parser takes a range of values apart. -/
theorem IsRange.parseStep (h : IsRange t s s' n) (ha : Accepts f s a) (hb : Accepts f s' b) :
    parseStep t f = .ok (s ++ '-' :: s', n) := by
  have hslash : '/' ∉ s ++ '-' :: s' := by
    have hacc : ∀ {s v}, Accepts f s v → '/' ∉ s := fun hv hs ↦ hv.char hs (.inr (.inl rfl))
    simp [hacc ha, hacc hb]
  cases h with
  | plain => exact parseStep_eq_ok.2 (.inl ⟨hslash, rfl, rfl⟩)
  | stepped hst => exact parseStep_eq_ok.2 (.inr ⟨_, rfl, hslash, hst.parse⟩)

theorem IsRange.unique {u u' : List Char} {n' a' b' : ℕ} (h : IsRange t s s' n)
    (h' : IsRange t u u' n') (ha : Accepts f s a) (hb : Accepts f s' b) (ha' : Accepts f u a')
    (hb' : Accepts f u' b') : s = u ∧ s' = u' ∧ n = n' := by
  have hdash : ∀ {s v}, Accepts f s v → '-' ∉ s :=
    fun hv hs ↦ hv.char hs (.inr (.inr (.inl rfl)))
  obtain ⟨hbase, hn⟩ :=
    Prod.mk.inj (Except.ok.inj ((h.parseStep ha hb).symm.trans (h'.parseStep ha' hb')))
  have hcut := Text.cut_append (hdash ha) s'
  rw [hbase, Text.cut_append (hdash ha') u'] at hcut
  obtain ⟨hs, hs'⟩ := Prod.mk.inj hcut
  exact ⟨hs.symm, (Option.some.inj hs').symm, hn⟩

/-- What a range says. -/
theorem IsRange.meaning (h : IsRange t s s' n) (hs : ∀ c ∈ t, isSpace c = false)
    (ha : Accepts f s a) (hb : Accepts f s' b) (hle : a ≤ b) : Says f t a b n := by
  refine ⟨_, h.parseStep ha hb, (parseBounds_eq_ok fun c hc ↦ ?_).2
    (.inr (.inl ⟨s, s', rfl, ha, hb, hle⟩))⟩
  exact hs c (mem_of_parseStep (h.parseStep ha hb) hc)

/-- An inverted range says nothing. -/
theorem IsRange.inverted (h : IsRange t s s' n) (hs : ∀ c ∈ t, isSpace c = false)
    (ha : Accepts f s a) (hb : Accepts f s' b) (hlt : b < a) {low high step : ℕ} :
    ¬ Says f t low high step := by
  rintro ⟨base, hstep, hbounds⟩
  obtain ⟨rfl, rfl⟩ := Prod.mk.inj (Except.ok.inj ((h.parseStep ha hb).symm.trans hstep))
  have hdash : '-' ∉ s := fun hmem ↦ ha.char hmem (.inr (.inr (.inl rfl)))
  obtain ⟨hlow, hhigh, hle⟩ :=
    (parseBounds_range (fun c hc ↦ hs c (mem_of_parseStep hstep hc)) hdash).1 hbounds
  rw [hlow.unique ha, hhigh.unique hb] at hle
  omega

/-! ### Sunday as 7 -/

/-- A documented form is a range, or the parser takes it for the remainders of what it denotes. -/
theorem Documented.range_or (h : Documented DowValue 0 6 t D) (hs : ∀ c ∈ t, Plain c) :
    ('-' ∉ t ∧ ∃ D', Documented (Accepts dowSpec) 0 6 t D' ∧
      ∀ i, i ∈ D' ↔ ∃ d ∈ D, d % 7 = i) ∨
    ∃ s s' a b n, IsRange t s s' n ∧ DowValue s a ∧ DowValue s' b ∧ a ≤ b ∧
      D = {i | ∃ k, i = a + k * n ∧ i ≤ b} := by
  have hmod : ∀ {D : Set ℕ}, (∀ d ∈ D, d ≤ 6) → ∀ i, i ∈ D ↔ ∃ d ∈ D, d % 7 = i := by
    intro D hD i
    have hself : ∀ d ∈ D, d % 7 = d := fun d hd ↦ Nat.mod_eq_of_lt (by have := hD d hd; omega)
    exact ⟨fun hi ↦ ⟨i, hi, hself i hi⟩, fun ⟨d, hd, hdi⟩ ↦ hdi ▸ (hself d hd).symm ▸ hd⟩
  cases h with
  | star => exact .inl ⟨by decide, _, .star, hmod fun d hd ↦ hd.2⟩
  | value hv =>
    have hacc := hv.accepts hs
    refine .inl ⟨fun h ↦ hacc.char h (.inr (.inr (.inl rfl))), _, .value hacc, fun i ↦ ?_⟩
    simp [eq_comm]
  | @range s s' a b ha hb hle =>
    refine .inr ⟨s, s', a, b, 1, .plain, ha, hb, hle, Set.ext fun i ↦ ?_⟩
    constructor
    · rintro ⟨hai, hib⟩
      exact ⟨i - a, by omega, hib⟩
    · rintro ⟨k, rfl, hle⟩
      exact ⟨by omega, hle⟩
  | starStep hst =>
    have hdash : '-' ∉ ['*'] ++ '/' :: _ := fun h ↦ by
      rcases List.mem_append.1 h with h | h
      · exact absurd h (by decide)
      · rcases List.mem_cons.1 h with h | h
        · exact absurd h (by decide)
        · exact not_isSeparator_of_isDigit (hst.1.2.1 _ h) (.inr (.inr (.inl rfl)))
    exact .inl ⟨hdash, _, .starStep hst, hmod fun d ⟨_, _, hd⟩ ↦ hd⟩
  | rangeStep ha hb hle hst =>
    exact .inr ⟨_, _, _, _, _, .stepped hst, ha, hb, hle, rfl⟩

/-- The term is the range from `a` to 7 with the step `n`. -/
def EndsInSeven (t : List Char) (a n : ℕ) : Prop :=
  ∃ s s', IsRange t s s' n ∧ DowValue s a ∧ DowValue s' 7

/-- The term denotes the day `i` of the week, Sunday being 0 and 7. -/
def Denotes (t : List Char) (i : ℕ) : Prop :=
  ∃ D, Documented DowValue 0 6 t D ∧ ∃ d ∈ D, d % 7 = i

/-- **Where no range runs into Sunday, a documented form says what it denotes.** -/
theorem Documented.says_denoted (h : Documented DowValue 0 6 t D) (hs : ∀ c ∈ t, Plain c)
    (hseven : ∀ a n, EndsInSeven t a n → a = 7) :
    ∃ low high step, Says dowSpec t low high step ∧
      ∀ i, (∃ k, i = low + k * step ∧ i ≤ high) ↔ ∃ d ∈ D, d % 7 = i := by
  have hspace : ∀ c ∈ t, isSpace c = false := fun c hc ↦ (hs c hc).2
  rcases h.range_or hs with ⟨-, D', hD', hmem⟩ | ⟨s, s', a, b, n, hrange, ha, hb, hle, rfl⟩
  · obtain ⟨low, high, step, hsaid, hbits⟩ := hD'.meaning hspace
    exact ⟨low, high, step, hsaid, fun i ↦ (hbits i).trans (hmem i)⟩
  · have hacc := ha.accepts fun c hc ↦ hs c (hrange.subset.1 hc)
    have hacc' := hb.accepts fun c hc ↦ hs c (hrange.subset.2 hc)
    have hb7 := hb.le
    rcases hb7.eq_or_lt with rfl | hb6
    · obtain rfl := hseven a n ⟨s, s', hrange, ha, hb⟩
      refine ⟨0, 0, n, hrange.meaning hspace hacc hacc' le_rfl, fun i ↦ ?_⟩
      constructor
      · rintro ⟨k, -, hi⟩
        exact ⟨7, ⟨0, by omega, le_rfl⟩, by omega⟩
      · rintro ⟨d, ⟨k, hd, hd7⟩, rfl⟩
        exact ⟨0, by omega, by omega⟩
    · rw [Nat.mod_eq_of_lt (by omega)] at hacc hacc'
      refine ⟨a, b, n, hrange.meaning hspace hacc hacc' hle, fun i ↦ ?_⟩
      constructor
      · rintro ⟨k, hi, hib⟩
        exact ⟨i, ⟨k, hi, hib⟩, Nat.mod_eq_of_lt (by omega)⟩
      · rintro ⟨d, ⟨k, hd, hdb⟩, rfl⟩
        rw [Nat.mod_eq_of_lt (by omega)]
        exact ⟨k, hd, hdb⟩

/-- A range from 0 to 7 is Sunday alone. -/
theorem EndsInSeven.says_sunday (h : EndsInSeven t 0 n) (hs : ∀ c ∈ t, Plain c) :
    Says dowSpec t 0 0 n := by
  obtain ⟨s, s', hrange, ha, hb⟩ := h
  exact hrange.meaning (fun c hc ↦ (hs c hc).2) (ha.accepts fun c hc ↦ hs c (hrange.subset.1 hc))
    (hb.accepts fun c hc ↦ hs c (hrange.subset.2 hc)) le_rfl

/-- A range from another day to 7 is refused. -/
theorem EndsInSeven.refused (h : EndsInSeven t a n) (hs : ∀ c ∈ t, Plain c) (h0 : a ≠ 0)
    (h7 : a ≠ 7) {low high step : ℕ} : ¬ Says dowSpec t low high step := by
  obtain ⟨s, s', hrange, ha, hb⟩ := h
  have hle := ha.le
  refine hrange.inverted (fun c hc ↦ (hs c hc).2)
    (ha.accepts fun c hc ↦ hs c (hrange.subset.1 hc))
    (hb.accepts fun c hc ↦ hs c (hrange.subset.2 hc)) ?_
  omega

/-- What a range that ends in 7 is documented to denote. -/
theorem EndsInSeven.denotes (h : EndsInSeven t a n) (hs : ∀ c ∈ t, Plain c) {i : ℕ}
    (hdoc : ∃ D, Documented DowValue 0 6 t D) :
    Denotes t i ↔ ∃ k, a + k * n ≤ 7 ∧ (a + k * n) % 7 = i := by
  obtain ⟨s, s', hrange, ha, hb⟩ := h
  have hplain := hrange.subset
  have hset : ∀ D, Documented DowValue 0 6 t D → D = {i | ∃ k, i = a + k * n ∧ i ≤ 7} := by
    intro D hD
    rcases hD.range_or hs with ⟨hdash, -⟩ | ⟨u, u', a', b', n', hrange', ha', hb', -, rfl⟩
    · exact absurd hrange.dash hdash
    · have hplain' := hrange'.subset
      obtain ⟨rfl, rfl, rfl⟩ := hrange.unique hrange'
        (ha.accepts fun c hc ↦ hs c (hplain.1 hc)) (hb.accepts fun c hc ↦ hs c (hplain.2 hc))
        (ha'.accepts fun c hc ↦ hs c (hplain'.1 hc)) (hb'.accepts fun c hc ↦ hs c (hplain'.2 hc))
      rw [ha.unique ha' fun c hc ↦ hs c (hplain.1 hc), hb.unique hb' fun c hc ↦ hs c (hplain.2 hc)]
  constructor
  · rintro ⟨D, hD, d, hd, rfl⟩
    rw [hset D hD] at hd
    obtain ⟨k, rfl, hle⟩ := hd
    exact ⟨k, hle, rfl⟩
  · rintro ⟨k, hle, rfl⟩
    obtain ⟨D, hD⟩ := hdoc
    refine ⟨D, hD, _, ?_, rfl⟩
    rw [hset D hD]
    exact ⟨k, rfl, hle⟩

/-- A term that says something is no range to 7, but for the two that begin with a Sunday. -/
theorem Says.seven {low high step : ℕ} (h : Says dowSpec t low high step)
    (hs : ∀ c ∈ t, Plain c) (hzero : ¬ ∃ n, EndsInSeven t 0 n) :
    ∀ a n, EndsInSeven t a n → a = 7 := by
  intro a n hseven
  by_contra hne
  rcases eq_or_ne a 0 with rfl | h0
  · exact hzero ⟨n, hseven⟩
  · exact hseven.refused hs h0 hne h

theorem Says.denotes {low high step i : ℕ} (h : Says dowSpec t low high step)
    (hs : ∀ c ∈ t, Plain c) (hdoc : ∃ D, Documented DowValue 0 6 t D)
    (hseven : ∀ a n, EndsInSeven t a n → a = 7) :
    Denotes t i ↔ ∃ k, i = low + k * step ∧ i ≤ high := by
  have hbits : ∀ D, Documented DowValue 0 6 t D →
      ((∃ k, i = low + k * step ∧ i ≤ high) ↔ ∃ d ∈ D, d % 7 = i) := by
    intro D hD
    obtain ⟨low', high', step', hsaid, hmem⟩ := hD.says_denoted hs hseven
    obtain ⟨rfl, rfl, rfl⟩ := h.unique hsaid
    exact hmem i
  constructor
  · rintro ⟨D, hD, hi⟩
    exact (hbits D hD).2 hi
  · intro hi
    obtain ⟨D, hD⟩ := hdoc
    exact ⟨D, hD, (hbits D hD).1 hi⟩

/-- The terms that are understood: those that begin with a Sunday where they end in 7. -/
theorem exists_says (hs : ∀ c ∈ t, Plain c) (hdoc : ∃ D, Documented DowValue 0 6 t D)
    (hseven : (∃ n, EndsInSeven t 0 n) ∨ ∀ a n, EndsInSeven t a n → a = 7) :
    ∃ low high step, Says dowSpec t low high step := by
  rcases hseven with ⟨n, hzero⟩ | hself
  · exact ⟨0, 0, n, hzero.says_sunday hs⟩
  · obtain ⟨D, hD⟩ := hdoc
    obtain ⟨low, high, step, hsaid, -⟩ := hD.says_denoted hs hself
    exact ⟨low, high, step, hsaid⟩

/-- No term says more than it denotes. -/
theorem Says.denotes_of_mem {low high step i : ℕ} (h : Says dowSpec t low high step)
    (hs : ∀ c ∈ t, Plain c) (hdoc : ∃ D, Documented DowValue 0 6 t D)
    (hi : ∃ k, i = low + k * step ∧ i ≤ high) : Denotes t i := by
  by_cases hzero : ∃ n, EndsInSeven t 0 n
  · obtain ⟨n, hzero⟩ := hzero
    obtain ⟨rfl, rfl, rfl⟩ := h.unique (hzero.says_sunday hs)
    obtain ⟨-, -, hle⟩ := hi
    exact (hzero.denotes hs hdoc).2 ⟨0, by omega, by omega⟩
  · exact (h.denotes hs hdoc (h.seven hs hzero)).2 hi

/-- **The days of the week are what their terms denote** if every range that ends in 7 begins with
7, or begins with 0 and the days it would add are denoted by other terms. -/
theorem sunday_iff {field : List Char} (hplain : ∀ c ∈ field, Plain c)
    (hdoc : ∀ t ∈ field.splitOn ',', ∃ D, Documented DowValue 0 6 t D) :
    (∃ bits, parseField field dowSpec = .ok bits ∧
      ∀ i ≤ 6, bits.getLsbD i = true ↔ ∃ t ∈ field.splitOn ',', Denotes t i) ↔
    ∀ t ∈ field.splitOn ',', ∀ a n, EndsInSeven t a n → a = 7 ∨ a = 0 ∧
      ∀ d, 1 ≤ d → d ≤ 6 → n ∣ d →
        ∃ t' ∈ field.splitOn ',', (¬ ∃ n', EndsInSeven t' 0 n') ∧ Denotes t' d := by
  have hterm : ∀ t ∈ field.splitOn ',', ∀ c ∈ t, Plain c :=
    fun t ht c hc ↦ hplain c (Text.mem_of_mem_splitOn ht hc)
  obtain ⟨hok, hbits⟩ := parseField_terms (f := dowSpec) fun c hc ↦ (hplain c hc).2
  constructor
  · rintro ⟨bits, hfield, hdenote⟩ t ht a n hseven
    obtain ⟨low, high, step, hsaid⟩ := hok.1 ⟨bits, hfield⟩ t ht
    rcases eq_or_ne a 7 with h7 | h7
    · exact .inl h7
    rcases eq_or_ne a 0 with rfl | h0
    · refine .inr ⟨rfl, fun d hd hd6 ⟨k, hk⟩ ↦ ?_⟩
      have hden : Denotes t d := (hseven.denotes (hterm t ht) (hdoc t ht)).2
        ⟨k, by rw [Nat.mul_comm, ← hk]; omega, by
          rw [Nat.mul_comm, ← hk, Nat.zero_add, Nat.mod_eq_of_lt (by omega)]⟩
      -- The bit was set by some term, and not by one that is Sunday alone.
      obtain ⟨t', ht', low', high', step', hsaid', hd'⟩ :=
        (hbits bits hfield d).1 ((hdenote d hd6).2 ⟨t, ht, hden⟩)
      refine ⟨t', ht', ?_, hsaid'.denotes_of_mem (hterm t' ht') (hdoc t' ht') hd'⟩
      rintro ⟨n', hseven'⟩
      obtain ⟨-, rfl, -⟩ := hsaid'.unique (hseven'.says_sunday (hterm t' ht'))
      obtain ⟨-, -, hle⟩ := hd'
      omega
    · exact absurd hsaid (hseven.refused (hterm t ht) h0 h7)
  · intro hcover
    have hcases : ∀ t ∈ field.splitOn ',', (∃ n, EndsInSeven t 0 n) ∨
        ∀ a n, EndsInSeven t a n → a = 7 := by
      intro t ht
      by_cases hzero : ∃ n, EndsInSeven t 0 n
      · exact .inl hzero
      · refine .inr fun a n hseven ↦ (hcover t ht a n hseven).resolve_right ?_
        rintro ⟨rfl, -⟩
        exact hzero ⟨n, hseven⟩
    have hsay : ∀ t ∈ field.splitOn ',', ∃ low high step, Says dowSpec t low high step :=
      fun t ht ↦ exists_says (hterm t ht) (hdoc t ht) (hcases t ht)
    obtain ⟨bits, hfield⟩ := hok.2 hsay
    have hstraight : ∀ {t i}, t ∈ field.splitOn ',' → (∀ a n, EndsInSeven t a n → a = 7) →
        Denotes t i → bits.getLsbD i = true := by
      intro t i ht hself hden
      obtain ⟨low, high, step, hsaid⟩ := hsay t ht
      exact (hbits bits hfield i).2 ⟨t, ht, low, high, step, hsaid,
        (hsaid.denotes (hterm t ht) (hdoc t ht) hself).1 hden⟩
    refine ⟨bits, hfield, fun i hi ↦ ⟨fun hbit ↦ ?_, ?_⟩⟩
    · obtain ⟨t, ht, low, high, step, hsaid, hk⟩ := (hbits bits hfield i).1 hbit
      exact ⟨t, ht, hsaid.denotes_of_mem (hterm t ht) (hdoc t ht) hk⟩
    · rintro ⟨t, ht, hden⟩
      rcases hcases t ht with ⟨n, hzero⟩ | hself
      · obtain ⟨k, hk7, rfl⟩ := (hzero.denotes (hterm t ht) (hdoc t ht)).1 hden
        rw [Nat.zero_add] at hk7 ⊢
        by_cases hsun : k * n % 7 = 0
        · rw [hsun]
          exact (hbits bits hfield 0).2
            ⟨t, ht, 0, 0, n, hzero.says_sunday (hterm t ht), 0, by simp, le_rfl⟩
        · have hday : k * n % 7 = k * n := Nat.mod_eq_of_lt (by omega)
          rw [hday] at hsun ⊢
          -- Another term denotes the day, and it is no range that ends in 7.
          obtain ⟨t', ht', hnot, hden'⟩ := ((hcover t ht 0 n hzero).resolve_left (by decide)).2
            (k * n) (by omega) (by omega) (Nat.dvd_mul_left n k)
          exact hstraight ht' ((hcases t' ht').resolve_left hnot) hden'
      · exact hstraight ht hself hden

/-- In "*/2,7" Sunday is denoted by both terms, and Monday by none. -/
theorem sunday_iff_value : ∃ bits, parseField ['*', '/', '2', ',', '7'] dowSpec = .ok bits ∧
    ∀ i ≤ 6, bits.getLsbD i = true ↔
      ∃ t ∈ ['*', '/', '2', ',', '7'].splitOn ',', Denotes t i := by
  have hsplit : ['*', '/', '2', ',', '7'].splitOn ',' = [['*', '/', '2'], ['7']] := by decide
  have hstep : Step ['2'] 2 := ⟨⟨by simp, by simp, by decide⟩, by decide, by decide⟩
  have hseven : DowValue ['7'] 7 := .inl ⟨⟨by simp, by simp, by decide⟩, by decide⟩
  refine (sunday_iff (by simp [Plain, isSpace]) ?_).2 ?_
  · rw [hsplit]
    simp only [List.mem_cons, List.not_mem_nil, or_false, forall_eq_or_imp, forall_eq]
    exact ⟨⟨_, .starStep hstep⟩, ⟨_, .value hseven⟩⟩
  · rw [hsplit]
    rintro t ht a n ⟨s, s', hrange, -⟩
    simp only [List.mem_cons, List.not_mem_nil, or_false] at ht
    rcases ht with rfl | rfl
    · exact absurd hrange.dash (by decide)
    · exact absurd hrange.dash (by decide)

/-- "5-7" is documented and refused, "0-7" is documented as every day and is Sunday alone. -/
theorem weekend_refused : (∃ D, Documented DowValue 0 6 ['5', '-', '7'] D) ∧
    parseField ['5', '-', '7'] dowSpec = .error (.inverted ['5', '-', '7'] "day of week") ∧
    (∃ D, Documented DowValue 0 6 ['0', '-', '7'] D ∧ ∀ i ≤ 6, i ∈ D) ∧
    parseField ['0', '-', '7'] dowSpec = .ok 1#64 := by
  have h0 : DowValue ['0'] 0 := .inl ⟨⟨by simp, by simp, by decide⟩, by decide⟩
  have h5 : DowValue ['5'] 5 := .inl ⟨⟨by simp, by simp, by decide⟩, by decide⟩
  have h7 : DowValue ['7'] 7 := .inl ⟨⟨by simp, by simp, by decide⟩, by decide⟩
  refine ⟨⟨_, .range h5 h7 (by decide)⟩, rfl, ⟨_, .range h0 h7 (by decide), fun i hi ↦ ?_⟩, rfl⟩
  exact ⟨Nat.zero_le i, by omega⟩

/-! ### A bare value with a step -/

theorem mem_trimSpace_or {c : Char} (hc : c ∈ s) : c ∈ trimSpace s ∨ isSpace c = true := by
  rw [← List.takeWhile_append_dropWhile (p := isSpace) (l := s), List.mem_append] at hc
  rcases hc with hc | hc
  · exact .inr (List.mem_takeWhile_imp hc)
  · rw [← List.mem_reverse,
      ← List.takeWhile_append_dropWhile (p := isSpace) (l := (s.dropWhile isSpace).reverse),
      List.mem_append] at hc
    rcases hc with hc | hc
    · exact .inr (List.mem_takeWhile_imp hc)
    · exact .inl (List.mem_reverse.2 hc)

/-- What is accepted as a value has no separators, with the white space around it. -/
theorem not_isSeparator_of_parseValue (hv : parseValue s f = .ok v) {c : Char} (hc : c ∈ s) :
    ¬ IsSeparator c := by
  rcases mem_trimSpace_or hc with hmem | hspace
  · exact (parseValue_eq_ok_trimmed.1 hv).char hmem
  · rintro (rfl | rfl | rfl | rfl) <;> simp [isSpace] at hspace

theorem parseValue_dropWhile : parseValue (s.dropWhile isSpace) f = parseValue s f := by
  rw [parseValue, parseValue, trimSpace, trimSpace, List.dropWhile_idempotent]

theorem dropWhile_append_cons {c : Char} (hc : isSpace c = false) (w : List Char) :
    (s ++ c :: w).dropWhile isSpace = s.dropWhile isSpace ++ c :: w := by
  rw [List.dropWhile_append]
  split_ifs with hnil
  · rw [List.isEmpty_iff.1 hnil, List.dropWhile_cons, hc]
    rfl
  · rfl

/-- Trimming a text that ends without white space takes away what stands in front. -/
theorem trimSpace_append {c : Char} {w : List Char} (hw : ∀ d ∈ c :: w, isSpace d = false) :
    trimSpace (s ++ c :: w) = s.dropWhile isSpace ++ c :: w := by
  have hne : c :: w ≠ [] := List.cons_ne_nil c w
  rw [trimSpace, dropWhile_append_cons (hw c List.mem_cons_self), List.rdropWhile_eq_self_iff]
  intro hcat
  rw [List.getLast_append_of_ne_nil _ hne, hw _ (List.getLast_mem hne)]
  decide

/-- The bits of a term with a step, from what is before the step. -/
theorem parseListed_stepped {low high : ℕ} (hs : '/' ∉ s) (hst : Step st n)
    (hbounds : parseBounds (s.dropWhile isSpace) n f = .ok (low, high)) :
    parseListed (s ++ '/' :: st) f = .ok (setBits high n (high + 1) low 0#64) := by
  have hdigits : ∀ c ∈ '/' :: st, isSpace c = false := by
    intro c hc
    rcases List.mem_cons.1 hc with rfl | hc
    · decide
    · exact not_isSpace_of_isDigit (hst.1.2.1 c hc)
  have hstep : parseStep (s.dropWhile isSpace ++ '/' :: st) f = .ok (s.dropWhile isSpace, n) :=
    parseStep_eq_ok.2 (.inr ⟨st, rfl, fun h ↦ hs (List.dropWhile_subset _ h), hst.parse⟩)
  rw [parseListed, trimSpace_append hdigits, if_neg (by simp), parseTerm, hstep]
  dsimp only
  rw [hbounds]

/-- A bare value with a step: the last value depends on the step. -/
theorem parseListed_value (hv : parseValue s f = .ok v) (hst : Step st n) :
    parseListed (s ++ '/' :: st) f = .ok (setBits (if 1 < n then f.max else v) n
      ((if 1 < n then f.max else v) + 1) v 0#64) := by
  have hsep : ∀ {c}, IsSeparator c → c ∉ s := fun hc h ↦ not_isSeparator_of_parseValue hv h hc
  have hdrop : ∀ {c}, IsSeparator c → c ∉ s.dropWhile isSpace :=
    fun hc h ↦ hsep hc (List.dropWhile_subset _ h)
  refine parseListed_stepped (hsep (.inr (.inl rfl))) hst ?_
  have hstar : s.dropWhile isSpace ≠ ['*'] := fun h ↦
    hdrop (c := '*') (.inr (.inr (.inr rfl))) (h ▸ List.mem_singleton_self _)
  rw [parseBounds, if_neg hstar, Text.cut_of_notMem (hdrop (.inr (.inr (.inl rfl)))),
    parseValue_dropWhile, hv]

/-- The range from there to the end. -/
theorem parseListed_toMax {m : List Char} (hv : parseValue s f = .ok v)
    (hm : parseValue m f = .ok f.max) (hst : Step st n) :
    parseListed ((s ++ '-' :: m) ++ '/' :: st) f = .ok (setBits f.max n (f.max + 1) v 0#64) := by
  have hsep : ∀ {c}, IsSeparator c → c ∉ s := fun hc h ↦ not_isSeparator_of_parseValue hv h hc
  have hsep' : ∀ {c}, IsSeparator c → c ∉ m := fun hc h ↦ not_isSeparator_of_parseValue hm h hc
  have hslash : '/' ∉ s ++ '-' :: m := by
    simp [hsep (c := '/') (.inr (.inl rfl)), hsep' (c := '/') (.inr (.inl rfl))]
  refine parseListed_stepped hslash hst ?_
  have hstar : s.dropWhile isSpace ++ '-' :: m ≠ ['*'] := by
    intro h
    have hmem : '-' ∈ ['*'] := h ▸ List.mem_append_right _ List.mem_cons_self
    exact absurd hmem (by decide)
  have hdash : '-' ∉ s.dropWhile isSpace :=
    fun h ↦ hsep (.inr (.inr (.inl rfl))) (List.dropWhile_subset _ h)
  have hle : ¬ f.max < v := not_lt.2 (parseValue_eq_ok_trimmed.1 hv).mem.2
  rw [dropWhile_append_cons (by decide), parseBounds, if_neg hstar, Text.cut_append hdash]
  dsimp only
  rw [parseValue_dropWhile, hv, hm]
  dsimp only
  rw [if_neg hle]

theorem parseTerms_congr {t' : List Char} (h : parseListed t f = parseListed t' f)
    (pre post : List (List Char)) (bits : BitVec 64) :
    parseTerms f (pre ++ t :: post) bits = parseTerms f (pre ++ t' :: post) bits := by
  induction pre generalizing bits with
  | nil => rw [List.nil_append, List.nil_append, parseTerms, parseTerms, h]
  | cons u pre ih =>
    rw [List.cons_append, List.cons_append, parseTerms, parseTerms]
    rcases parseListed u f with e | b
    · rfl
    · exact ih _

/-- Terms that are read alike can be exchanged in a list. -/
theorem parseField_exchange {t' : List Char} (h : parseListed t f = parseListed t' f)
    (ht : ',' ∉ t) (ht' : ',' ∉ t') {pre post : List (List Char)}
    (hcomma : ∀ u ∈ pre ++ post, ',' ∉ u) :
    parseField ([','].intercalate (pre ++ t :: post)) f =
      parseField ([','].intercalate (pre ++ t' :: post)) f := by
  have hsplit : ∀ t, ',' ∉ t →
      ([','].intercalate (pre ++ t :: post)).splitOn ',' = pre ++ t :: post := by
    intro t ht
    refine List.splitOn_intercalate ',' (fun u hu ↦ ?_) (by simp)
    rcases List.mem_append.1 hu with hu | hu
    · exact hcomma u (List.mem_append_left _ hu)
    · rcases List.mem_cons.1 hu with rfl | hu
      · exact ht
      · exact hcomma u (List.mem_append_right _ hu)
  rw [parseField, parseField, hsplit t ht, hsplit t' ht']
  exact parseTerms_congr h pre post _

/-- **A bare value with a step is the range from there to the end**, unless the step is 1 and the
value is not the end already. -/
theorem stepped_value_iff (hf : f ∈ [minuteSpec, hourSpec, domSpec, monthSpec, dowSpec])
    {m : List Char} (hv : parseValue s f = .ok v) (hm : Decimal m f.max) (hst : Step st n) :
    ((∀ pre post : List (List Char), (∀ t ∈ pre ++ post, ',' ∉ t) →
      parseField ([','].intercalate (pre ++ (s ++ '/' :: st) :: post)) f =
        parseField ([','].intercalate (pre ++ ((s ++ '-' :: m) ++ '/' :: st) :: post)) f) ∧
      ∃ bits, parseListed (s ++ '/' :: st) f = .ok bits ∧
        ∀ i, bits.getLsbD i = true ↔ ∃ k, i = v + k * n ∧ i ≤ f.max) ↔
    n ≠ 1 ∨ v = f.max := by
  have hmax : parseValue m f = .ok f.max := by
    have hbounds : f.max ≠ 7 ∧ f.min ≤ f.max := by
      simp only [List.mem_cons, List.not_mem_nil, or_false] at hf
      rcases hf with rfl | rfl | rfl | rfl | rfl <;> decide
    refine (parseValue_eq_ok fun c hc ↦ not_isSpace_of_isDigit (hm.2.1 c hc)).2
      (.inr ⟨f.max, hm, ?_⟩)
    rw [if_neg fun h ↦ hbounds.1 h.2]
    exact ⟨hbounds.2, le_rfl, rfl⟩
  have hle : v ≤ f.max := (parseValue_eq_ok_trimmed.1 hv).mem.2
  have hlt := f.max_lt
  have hpos : 0 < n := hst.2.1
  have hvalue := parseListed_value hv hst
  have hrange := parseListed_toMax hv hmax hst
  constructor
  · rintro ⟨-, bits, hbits, hmem⟩
    by_contra! hone
    obtain ⟨rfl, hne⟩ := hone
    rw [hvalue, if_neg (lt_irrefl 1)] at hbits
    obtain rfl := Except.ok.inj hbits
    -- The last value of the field is denoted, and its bit is not set.
    have hlast := (hmem f.max).2 ⟨f.max - v, by omega, le_rfl⟩
    rw [getLsbD_setBits hpos (by omega) (by omega)] at hlast
    rcases hlast with h | ⟨-, -, h⟩
    · simp at h
    · omega
  · intro hcond
    have hsame : parseListed (s ++ '/' :: st) f = parseListed ((s ++ '-' :: m) ++ '/' :: st) f := by
      have hhigh : (if 1 < n then f.max else v) = f.max := by
        split_ifs with h
        · rfl
        · exact hcond.resolve_left (by omega)
      rw [hvalue, hrange, hhigh]
    constructor
    · intro pre post hcomma
      have hs : ',' ∉ s := fun h ↦ not_isSeparator_of_parseValue hv h (.inl rfl)
      have hm : ',' ∉ m := fun h ↦ not_isSeparator_of_parseValue hmax h (.inl rfl)
      have hst : ',' ∉ st := fun h ↦ not_isSeparator_of_isDigit (hst.1.2.1 _ h) (.inl rfl)
      exact parseField_exchange hsame (by simp [hs, hst]) (by simp [hs, hm, hst]) hcomma
    · refine ⟨_, hsame.trans hrange, fun i ↦ ?_⟩
      rw [getLsbD_setBits hpos hlt (by omega)]
      simp

/-- "5/15" among the minutes is "5-59/15". -/
theorem stepped_value_iff_quarters : parseField ['5', '/', '1', '5'] minuteSpec =
    parseField ['5', '-', '5', '9', '/', '1', '5'] minuteSpec := by
  have hmax : Decimal ['5', '9'] minuteSpec.max := ⟨by simp, by simp, by decide⟩
  have hstep : Step ['1', '5'] 15 := ⟨⟨by simp, by simp, by decide⟩, by decide, by decide⟩
  exact ((stepped_value_iff (f := minuteSpec) (s := ['5']) (v := 5) (by simp) rfl hmax hstep).2
    (.inl (by decide))).1 [] [] (by simp)

/-- "5/1" among the minutes is the fifth minute alone. -/
theorem stepped_value_alone : parseField ['5', '/', '1'] minuteSpec = .ok (1#64 <<< 5) ∧
    ∃ bits, parseField ['5', '-', '5', '9', '/', '1'] minuteSpec = .ok bits ∧
      bits.getLsbD 6 = true :=
  ⟨rfl, _, rfl, by decide⟩

end TaskQueue.Cron
