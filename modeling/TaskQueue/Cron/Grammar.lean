import TaskQueue.Cron.Field

/-!
# The grammar of a field

What a field may say and what it means, as the package documentation gives it: a comma-separated
list of terms, each a star, a value or a range, with or without a step (`Base`, `Term`). The forms
whose meaning is documented are `Documented`, which also says what they denote.

The grammar is given over any notion of **value**, as a relation between texts and numbers. With the
values that `parseValue` accepts it describes exactly what `parseTerm` understands (`term_iff`) and,
for the documented forms, what it takes them to say (`Documented.meaning`). What is left for a field
is what its values are: in the four fields that are not about days of the week they are the numbers
in its bounds, and for months the names.
-/

namespace TaskQueue.Cron

section Grammar

variable (V : List Char → ℕ → Prop) (min max : ℕ)

/-- A base: the text, and the first and the last value it stands for. -/
inductive Base : List Char → ℕ → ℕ → Prop
  | star : Base ['*'] min max
  | value {s : List Char} {v : ℕ} (hv : V s v) : Base s v v
  | range {s s' : List Char} {a b : ℕ} (ha : V s a) (hb : V s' b) (hle : a ≤ b) :
      Base (s ++ '-' :: s') a b

/-- A step: a decimal number between 1 and `2 ^ 32 - 1`. -/
def Step (s : List Char) (n : ℕ) : Prop := Decimal s n ∧ 1 ≤ n ∧ n ≤ 2 ^ 32 - 1

/-- A term: a base, or a base with a step. -/
inductive Term : List Char → Prop
  | plain {s : List Char} {a b : ℕ} (h : Base V min max s a b) : Term s
  | stepped {s st : List Char} {a b n : ℕ} (h : Base V min max s a b) (hst : Step st n) :
      Term (s ++ '/' :: st)

/-- The documented forms of a term, and the numbers they denote. -/
inductive Documented : List Char → Set ℕ → Prop
  | star : Documented ['*'] {i | min ≤ i ∧ i ≤ max}
  | value {s : List Char} {v : ℕ} (hv : V s v) : Documented s {v}
  | range {s s' : List Char} {a b : ℕ} (ha : V s a) (hb : V s' b) (hle : a ≤ b) :
      Documented (s ++ '-' :: s') {i | a ≤ i ∧ i ≤ b}
  | starStep {st : List Char} {n : ℕ} (hst : Step st n) :
      Documented (['*'] ++ '/' :: st) {i | ∃ k, i = min + k * n ∧ i ≤ max}
  | rangeStep {s s' st : List Char} {a b n : ℕ} (ha : V s a) (hb : V s' b) (hle : a ≤ b)
      (hst : Step st n) :
      Documented ((s ++ '-' :: s') ++ '/' :: st) {i | ∃ k, i = a + k * n ∧ i ≤ b}

variable {V min max} {V' : List Char → ℕ → Prop} {t : List Char} {D : Set ℕ} {a b : ℕ}

theorem Base.mono (h : Base V min max t a b) (hV : ∀ s v, s ⊆ t → V s v → V' s v) :
    Base V' min max t a b := by
  cases h with
  | star => exact .star
  | value hv => exact .value (hV _ _ (List.Subset.refl _) hv)
  | range ha hb hle => exact .range (hV _ _ (by simp) ha) (hV _ _ (by simp) hb) hle

theorem Term.mono (h : Term V min max t) (hV : ∀ s v, s ⊆ t → V s v → V' s v) :
    Term V' min max t := by
  cases h with
  | plain h => exact .plain (h.mono hV)
  | stepped h hst =>
    exact .stepped (h.mono fun s v hs ↦ hV s v (List.Subset.trans hs (by simp))) hst

theorem Documented.mono (h : Documented V min max t D) (hV : ∀ s v, s ⊆ t → V s v → V' s v) :
    Documented V' min max t D := by
  cases h with
  | star => exact .star
  | value hv => exact .value (hV _ _ (List.Subset.refl _) hv)
  | range ha hb hle => exact .range (hV _ _ (by simp) ha) (hV _ _ (by simp) hb) hle
  | starStep hst => exact .starStep hst
  | rangeStep ha hb hle hst =>
    exact .rangeStep (hV _ _ (by simp) ha) (hV _ _ (fun c hc ↦ by simp [hc]) hb) hle hst

end Grammar

variable {f : FieldSpec} {t s st : List Char} {D : Set ℕ} {a b n : ℕ}

/-! ### The grammar of what is accepted -/

theorem Step.parse (h : Step st n) : Decimal st n ∧ 0 < n ∧ n < 2 ^ 32 := ⟨h.1, h.2.1, by
  have := h.2.2
  omega⟩

theorem Base.slash (h : Base (Accepts f) f.min f.max t a b) : '/' ∉ t := by
  have hacc : ∀ {s v}, Accepts f s v → '/' ∉ s := fun hv hs ↦ hv.char hs (.inr (.inl rfl))
  cases h with
  | star => decide
  | value hv => exact hacc hv
  | range ha hb hle => simp [hacc ha, hacc hb]

/-- A base has bounds, whatever step comes after it. -/
theorem Base.bounds (h : Base (Accepts f) f.min f.max t a b)
    (hs : ∀ c ∈ t, isSpace c = false) (step : ℕ) :
    ∃ low high, parseBounds t step f = .ok (low, high) := by
  cases h with
  | star => exact ⟨_, _, (parseBounds_eq_ok hs).2 (.inl ⟨rfl, rfl, rfl⟩)⟩
  | value hv => exact ⟨_, _, (parseBounds_eq_ok hs).2 (.inr (.inr ⟨hv, rfl⟩))⟩
  | range ha hb hle =>
    exact ⟨_, _, (parseBounds_eq_ok hs).2 (.inr (.inl ⟨_, _, rfl, ha, hb, hle⟩))⟩

theorem base_of_bounds {low high step : ℕ} (hs : ∀ c ∈ t, isSpace c = false)
    (h : parseBounds t step f = .ok (low, high)) :
    ∃ a b, Base (Accepts f) f.min f.max t a b := by
  rcases (parseBounds_eq_ok hs).1 h with ⟨rfl, -, -⟩ | ⟨x, y, rfl, ha, hb, hle⟩ | ⟨hv, -⟩
  · exact ⟨_, _, .star⟩
  · exact ⟨_, _, .range ha hb hle⟩
  · exact ⟨_, _, .value hv⟩

/-- **The parser understands exactly the terms of the grammar.** -/
theorem term_iff (hs : ∀ c ∈ t, isSpace c = false) :
    (∃ low high step, Says f t low high step) ↔ Term (Accepts f) f.min f.max t := by
  constructor
  · rintro ⟨low, high, step, base, hstep, hbounds⟩
    have hbase : ∀ c ∈ base, isSpace c = false := fun c hc ↦ hs c (mem_of_parseStep hstep hc)
    obtain ⟨a, b, h⟩ := base_of_bounds hbase hbounds
    rcases parseStep_eq_ok.1 hstep with ⟨-, rfl, -⟩ | ⟨st, rfl, -, hdec, hpos, hlt⟩
    · exact .plain h
    · exact .stepped h ⟨hdec, hpos, by omega⟩
  · intro hterm
    cases hterm with
    | plain h =>
      obtain ⟨low, high, hbounds⟩ := h.bounds hs 1
      exact ⟨_, _, _, _, parseStep_eq_ok.2 (.inl ⟨h.slash, rfl, rfl⟩), hbounds⟩
    | stepped h hst =>
      obtain ⟨low, high, hbounds⟩ := h.bounds (fun c hc ↦ hs c (List.mem_append_left _ hc)) _
      exact ⟨_, _, _, _, parseStep_eq_ok.2 (.inr ⟨_, rfl, h.slash, hst.parse⟩), hbounds⟩

/-- **What a documented form says.** -/
theorem Documented.meaning (h : Documented (Accepts f) f.min f.max t D)
    (hs : ∀ c ∈ t, isSpace c = false) : ∃ low high step, Says f t low high step ∧
      ∀ i, (∃ k, i = low + k * step ∧ i ≤ high) ↔ i ∈ D := by
  have hplain : ∀ {t a b}, Base (Accepts f) f.min f.max t a b →
      parseStep t f = .ok (t, 1) := fun h ↦ parseStep_eq_ok.2 (.inl ⟨h.slash, rfl, rfl⟩)
  have hstepped : ∀ {t a b st n}, Base (Accepts f) f.min f.max t a b → Step st n →
      parseStep (t ++ '/' :: st) f = .ok (t, n) :=
    fun h hst ↦ parseStep_eq_ok.2 (.inr ⟨_, rfl, h.slash, hst.parse⟩)
  have hone : ∀ {a b i : ℕ}, (∃ k, i = a + k * 1 ∧ i ≤ b) ↔ a ≤ i ∧ i ≤ b := by
    intro a b i
    constructor
    · rintro ⟨k, rfl, hle⟩
      exact ⟨by omega, hle⟩
    · exact fun h ↦ ⟨i - a, by omega, h.2⟩
  cases h with
  | star =>
    exact ⟨_, _, 1, ⟨_, hplain .star, (parseBounds_eq_ok hs).2 (.inl ⟨rfl, rfl, rfl⟩)⟩,
      fun _ ↦ hone⟩
  | @value s v hv =>
    refine ⟨v, v, 1, ⟨_, hplain (.value hv), (parseBounds_eq_ok hs).2 (.inr (.inr ⟨hv, rfl⟩))⟩,
      fun i ↦ hone.trans ?_⟩
    rw [Set.mem_singleton_iff]
    omega
  | range ha hb hle =>
    exact ⟨_, _, 1, ⟨_, hplain (.range ha hb hle),
      (parseBounds_eq_ok hs).2 (.inr (.inl ⟨_, _, rfl, ha, hb, hle⟩))⟩, fun _ ↦ hone⟩
  | starStep hst =>
    refine ⟨_, _, _, ⟨_, hstepped .star hst, (parseBounds_eq_ok fun c hc ↦ ?_).2
      (.inl ⟨rfl, rfl, rfl⟩)⟩, fun _ ↦ Iff.rfl⟩
    exact hs c (List.mem_append_left _ hc)
  | rangeStep ha hb hle hst =>
    refine ⟨_, _, _, ⟨_, hstepped (.range ha hb hle) hst, (parseBounds_eq_ok fun c hc ↦ ?_).2
      (.inr (.inl ⟨_, _, rfl, ha, hb, hle⟩))⟩, fun _ ↦ Iff.rfl⟩
    exact hs c (List.mem_append_left _ hc)

/-! ### The four fields -/

/-- A value as documented: a decimal number in the bounds of the field, or a name in any letter
case. -/
def FieldSpec.Value (f : FieldSpec) (s : List Char) (v : ℕ) : Prop :=
  Decimal s v ∧ f.min ≤ v ∧ v ≤ f.max ∨ (s.map Char.toLower, v) ∈ f.names

/-- An ASCII character that is not white space. -/
def Plain (c : Char) : Prop := c.toNat < 128 ∧ isSpace c = false

theorem map_toLower (hs : ∀ c ∈ s, Plain c) : s.map toLower = s.map Char.toLower := by
  refine List.map_congr_left fun c hc ↦ ?_
  have hascii := (hs c hc).1
  rw [toLower, if_neg (by omega), if_neg (by omega)]

/-- Where days of the week are not meant, the values are as documented. -/
theorem accepts_iff {v : ℕ} (hf : f.name ≠ "day of week") (hs : ∀ c ∈ s, Plain c) :
    Accepts f s v ↔ f.Value s v := by
  rw [Accepts, Named, map_toLower hs, FieldSpec.Value, or_comm]
  refine or_congr ⟨?_, ?_⟩ Iff.rfl
  · rintro ⟨n, hdec, hn⟩
    rw [if_neg fun h ↦ hf h.1] at hn
    exact ⟨hn.2.2 ▸ hdec, hn.2.2 ▸ hn.1, hn.2.2 ▸ hn.2.1⟩
  · rintro ⟨hdec, hmin, hmax⟩
    refine ⟨v, hdec, ?_⟩
    rw [if_neg fun h ↦ hf h.1]
    exact ⟨hmin, hmax, rfl⟩

/-- **A field accepts the lists of its terms**, and sets no bit outside its bounds. -/
theorem parseField_ok_iff {field : List Char} (hs : ∀ c ∈ field, isSpace c = false) :
    ((∃ bits, parseField field f = .ok bits) ↔
      ∀ t ∈ field.splitOn ',', Term (Accepts f) f.min f.max t) ∧
    ∀ bits, parseField field f = .ok bits →
      ∀ i, bits.getLsbD i = true → f.min ≤ i ∧ i ≤ f.max := by
  have hterm : ∀ t ∈ field.splitOn ',', ∀ c ∈ t, isSpace c = false :=
    fun t ht c hc ↦ hs c (Text.mem_of_mem_splitOn ht hc)
  refine ⟨(parseField_terms hs).1.trans (forall₂_congr fun t ht ↦ term_iff (hterm t ht)),
    fun bits hbits i hi ↦ ?_⟩
  obtain ⟨t, ht, low, high, step, hsaid, k, rfl, hle⟩ := ((parseField_terms hs).2 bits hbits i).1 hi
  obtain ⟨hmin, hmax⟩ := hsaid.mem (hterm t ht)
  exact ⟨by omega, by omega⟩

/-- **A list of documented forms sets the bits they denote.** -/
theorem getLsbD_parseField {field : List Char} {bits : BitVec 64}
    (hs : ∀ c ∈ field, isSpace c = false) (hbits : parseField field f = .ok bits)
    (hdoc : ∀ t ∈ field.splitOn ',', ∃ D, Documented (Accepts f) f.min f.max t D) (i : ℕ) :
    bits.getLsbD i = true ↔
      ∃ t ∈ field.splitOn ',', ∃ D, Documented (Accepts f) f.min f.max t D ∧ i ∈ D := by
  have hterm : ∀ t ∈ field.splitOn ',', ∀ c ∈ t, isSpace c = false :=
    fun t ht c hc ↦ hs c (Text.mem_of_mem_splitOn ht hc)
  rw [(parseField_terms hs).2 bits hbits]
  refine exists_congr fun t ↦ and_congr_right fun ht ↦ ?_
  constructor
  · rintro ⟨low, high, step, hsaid, hi⟩
    obtain ⟨D, hD⟩ := hdoc t ht
    obtain ⟨low', high', step', hsaid', hmem⟩ := hD.meaning (hterm t ht)
    obtain ⟨rfl, rfl, rfl⟩ := hsaid.unique hsaid'
    exact ⟨D, hD, (hmem i).1 hi⟩
  · rintro ⟨D, hD, hi⟩
    obtain ⟨low, high, step, hsaid, hmem⟩ := hD.meaning (hterm t ht)
    exact ⟨low, high, step, hsaid, (hmem i).2 hi⟩

/-- **Field parsing accepts exactly the grammar, and denotes it.** -/
theorem parseField_grammar (hf : f ∈ [minuteSpec, hourSpec, domSpec, monthSpec])
    {field : List Char} (hplain : ∀ c ∈ field, Plain c) :
    ((∃ bits, parseField field f = .ok bits) ↔
      ∀ t ∈ field.splitOn ',', Term f.Value f.min f.max t) ∧
    ∀ bits, parseField field f = .ok bits →
      ((∀ t ∈ field.splitOn ',', ∃ D, Documented f.Value f.min f.max t D) →
        ∀ i, bits.getLsbD i = true ↔
          ∃ t ∈ field.splitOn ',', ∃ D, Documented f.Value f.min f.max t D ∧ i ∈ D) ∧
      ∀ i, bits.getLsbD i = true → f.min ≤ i ∧ i ≤ f.max := by
  have hname : f.name ≠ "day of week" := by
    simp only [List.mem_cons, List.not_mem_nil, or_false] at hf
    rcases hf with rfl | rfl | rfl | rfl <;> decide
  have hs : ∀ c ∈ field, isSpace c = false := fun c hc ↦ (hplain c hc).2
  have hvalue : ∀ t ∈ field.splitOn ',', ∀ s v, s ⊆ t → (Accepts f s v ↔ f.Value s v) :=
    fun t ht s v hst ↦ accepts_iff hname fun c hc ↦
      hplain c (Text.mem_of_mem_splitOn ht (hst hc))
  have hterm : ∀ t ∈ field.splitOn ',',
      (Term (Accepts f) f.min f.max t ↔ Term f.Value f.min f.max t) := fun t ht ↦
    ⟨fun h ↦ h.mono fun s v hst ↦ (hvalue t ht s v hst).1,
      fun h ↦ h.mono fun s v hst ↦ (hvalue t ht s v hst).2⟩
  have hdocumented : ∀ t ∈ field.splitOn ',', ∀ D,
      (Documented (Accepts f) f.min f.max t D ↔ Documented f.Value f.min f.max t D) := fun t ht D ↦
    ⟨fun h ↦ h.mono fun s v hst ↦ (hvalue t ht s v hst).1,
      fun h ↦ h.mono fun s v hst ↦ (hvalue t ht s v hst).2⟩
  obtain ⟨hok, hbounds⟩ := parseField_ok_iff (f := f) hs
  refine ⟨hok.trans (forall₂_congr hterm), fun bits hbits ↦ ⟨fun hdoc i ↦ ?_, hbounds bits hbits⟩⟩
  have hdoc' : ∀ t ∈ field.splitOn ',', ∃ D, Documented (Accepts f) f.min f.max t D :=
    fun t ht ↦ (hdoc t ht).imp fun D ↦ (hdocumented t ht D).2
  rw [getLsbD_parseField hs hbits hdoc']
  exact exists_congr fun t ↦ and_congr_right fun ht ↦ exists_congr fun D ↦
    and_congr_left fun _ ↦ hdocumented t ht D

/-- "Feb-DEC/5" is accepted as a field of months, with July among them. -/
theorem parseField_grammar_month : ∃ bits,
    parseField ['F', 'e', 'b', '-', 'D', 'E', 'C', '/', '5'] monthSpec = .ok bits ∧
      bits.getLsbD 7 = true := by
  have hsplit : ['F', 'e', 'b', '-', 'D', 'E', 'C', '/', '5'].splitOn ',' =
      [['F', 'e', 'b', '-', 'D', 'E', 'C', '/', '5']] := by decide
  have hfeb : monthSpec.Value ['F', 'e', 'b'] 2 := .inr (by decide)
  have hdec : monthSpec.Value ['D', 'E', 'C'] 12 := .inr (by decide)
  have hstep : Step ['5'] 5 := ⟨⟨by simp, by simp, by decide⟩, by decide, by decide⟩
  have hplain : ∀ c ∈ ['F', 'e', 'b', '-', 'D', 'E', 'C', '/', '5'], Plain c := by
    simp [Plain, isSpace]
  obtain ⟨haccepts, hdenotes⟩ := parseField_grammar (f := monthSpec) (by simp) hplain
  rw [hsplit] at haccepts hdenotes
  obtain ⟨bits, hbits⟩ := haccepts.2 fun t ht ↦ by
    rw [List.mem_singleton.1 ht]
    exact .stepped (.range hfeb hdec (by decide)) hstep
  have hdoc : Documented monthSpec.Value monthSpec.min monthSpec.max _ _ :=
    .rangeStep hfeb hdec (by decide) hstep
  refine ⟨bits, hbits, ((hdenotes bits hbits).1 (fun t ht ↦ ?_) 7).2 ⟨_, by simp, _, hdoc, 1, ?_⟩⟩
  · rw [List.mem_singleton.1 ht]
    exact ⟨_, hdoc⟩
  · decide

end TaskQueue.Cron
