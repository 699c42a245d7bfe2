import Mathlib.Data.List.DropRight
import TaskQueue.Cron.Scan
import TaskQueue.Data.Text

/-!
# Parsing a field of a cron specification

`parseField`, `parseTerm` and `parseValue` of `internal/cron/cron.go`, function for function, with
their errors. A Go string is the list of its characters.

What the library functions do is assumed as documented. `strings.ToLower` is only used for looking a
name up, so it is given for the characters whose lower case is an ASCII letter; every other
character stays outside ASCII and matches no name. `strconv.ParseUint` with base 10 and 32 bits
accepts a non-empty run of digits that denotes a number below `2 ^ 32`. A `uint` has 64 bits; the
loop of `parseTerm` never counts beyond `63 + 2 ^ 32`, so its variables are natural numbers.

Each function has one lemma that says what it accepts and what it returns then
(`parseUint_eq_some`, `parseValue_eq_ok`, `getLsbD_setBits`, `parseTerm_eq_ok`, `parseField_eq_ok`);
later modules do not look inside the functions any more.
-/

namespace TaskQueue.Cron

/-! ### The library functions -/

/-- `unicode.IsSpace` -/
def isSpace (c : Char) : Bool :=
  decide (c.toNat ∈ [9, 10, 11, 12, 13, 32, 0x85, 0xA0, 0x1680, 0x2028, 0x2029, 0x202F, 0x205F,
    0x3000]) || (decide (0x2000 ≤ c.toNat) && decide (c.toNat ≤ 0x200A))

/-- `strings.TrimSpace` -/
def trimSpace (s : List Char) : List Char := (s.dropWhile isSpace).rdropWhile isSpace

/-- `unicode.ToLower`, as far as it leads to ASCII: besides the capital letters, the dotted capital
I and the Kelvin sign. -/
def toLower (c : Char) : Char :=
  if c.toNat = 0x130 then 'i' else if c.toNat = 0x212A then 'k' else c.toLower

/-- The number a run of digits denotes. -/
def decimal (s : List Char) : ℕ := s.foldl (fun n c ↦ 10 * n + (c.toNat - '0'.toNat)) 0

/-- The text is a decimal number. -/
def Decimal (s : List Char) (n : ℕ) : Prop :=
  s ≠ [] ∧ (∀ c ∈ s, c.isDigit = true) ∧ decimal s = n

/-- `strconv.ParseUint(s, 10, 32)`, if it succeeds. -/
def parseUint (s : List Char) : Option ℕ :=
  if s ≠ [] ∧ s.all Char.isDigit ∧ decimal s < 2 ^ 32 then some (decimal s) else none

/-! ### Fields -/

/-- A field of a specification: its bounds and the names of its values. -/
structure FieldSpec where
  name : String
  min : ℕ
  max : ℕ
  names : List (List Char × ℕ)
  max_lt : max < 64
  distinct : (names.map Prod.fst).Nodup
  named : ∀ e ∈ names, min ≤ e.2 ∧ e.2 ≤ max
  letters : ∀ e ∈ names, e.1 ≠ [] ∧ ∀ c ∈ e.1, c.isLower = true
  /-- The alias of Sunday is a value of the field. -/
  sunday : name = "day of week" → min = 0

def monthNames : List (List Char × ℕ) :=
  [(['j', 'a', 'n'], 1), (['f', 'e', 'b'], 2), (['m', 'a', 'r'], 3), (['a', 'p', 'r'], 4),
    (['m', 'a', 'y'], 5), (['j', 'u', 'n'], 6), (['j', 'u', 'l'], 7), (['a', 'u', 'g'], 8),
    (['s', 'e', 'p'], 9), (['o', 'c', 't'], 10), (['n', 'o', 'v'], 11), (['d', 'e', 'c'], 12)]

def dayNames : List (List Char × ℕ) :=
  [(['s', 'u', 'n'], 0), (['m', 'o', 'n'], 1), (['t', 'u', 'e'], 2), (['w', 'e', 'd'], 3),
    (['t', 'h', 'u'], 4), (['f', 'r', 'i'], 5), (['s', 'a', 't'], 6)]

def minuteSpec : FieldSpec :=
  ⟨"minute", 0, 59, [], by decide, by decide, by decide, by decide, by decide⟩

def hourSpec : FieldSpec :=
  ⟨"hour", 0, 23, [], by decide, by decide, by decide, by decide, by decide⟩

def domSpec : FieldSpec :=
  ⟨"day of month", 1, 31, [], by decide, by decide, by decide, by decide, by decide⟩

def monthSpec : FieldSpec :=
  ⟨"month", 1, 12, monthNames, by decide, by decide, by decide, by simp [monthNames], by decide⟩

def dowSpec : FieldSpec :=
  ⟨"day of week", 0, 6, dayNames, by decide, by decide, by decide, by simp [dayNames], by decide⟩

/-- What `Parse` refuses a specification with. -/
inductive ParseError
  /-- "cron: empty specification" -/
  | emptySpecification
  /-- "cron: parse @every duration: ..." -/
  | everyDuration (err : String)
  /-- "cron: @every duration must be positive, got ..." -/
  | everyNotPositive (d : Duration)
  /-- "cron: expected 5 fields, got ... in ..." -/
  | fieldCount (n : ℕ) (spec : List Char)
  /-- "cron: empty term in ... field" -/
  | emptyTerm (field : String)
  /-- "cron: invalid step ... in ... field" -/
  | invalidStep (step : List Char) (field : String)
  /-- "cron: range ... is inverted in ... field" -/
  | inverted (range : List Char) (field : String)
  /-- "cron: invalid value ... in ... field" -/
  | invalidValue (value : List Char) (field : String)
  /-- "cron: value ... out of range ...-... in ... field" -/
  | outOfRange (v min max : ℕ) (field : String)

/-- `parseValue` -/
def parseValue (s : List Char) (f : FieldSpec) : Except ParseError ℕ :=
  let s := trimSpace s
  match f.names.lookup (s.map toLower) with
  | some v => .ok v
  | none =>
    match parseUint s with
    | none => .error (.invalidValue s f.name)
    | some v =>
      -- Sunday is conventionally both 0 and 7
      if f.name = "day of week" ∧ v = 7 then .ok 0
      else if v < f.min ∨ f.max < v then .error (.outOfRange v f.min f.max f.name)
      else .ok v

/-- The step of a term and what stands before it. -/
def parseStep (term : List Char) (f : FieldSpec) : Except ParseError (List Char × ℕ) :=
  match Text.cut '/' term with
  | (term, none) => .ok (term, 1)
  | (term, some stepStr) =>
    match parseUint stepStr with
    | some n => if n = 0 then .error (.invalidStep stepStr f.name) else .ok (term, n)
    | none => .error (.invalidStep stepStr f.name)

/-- The first and the last value of a term, once its step is known. -/
def parseBounds (term : List Char) (step : ℕ) (f : FieldSpec) : Except ParseError (ℕ × ℕ) :=
  if term = ['*'] then .ok (f.min, f.max)
  else
    match Text.cut '-' term with
    | (low, some high) =>
      match parseValue low f with
      | .error e => .error e
      | .ok low =>
        match parseValue high f with
        | .error e => .error e
        | .ok high => if high < low then .error (.inverted term f.name) else .ok (low, high)
    | (_, none) =>
      match parseValue term f with
      | .error e => .error e
      -- a bare value with a step means "from here to the end of the range"
      | .ok v => .ok (v, if 1 < step then f.max else v)

/-- The loop that sets the bits of a term, for at most `n` rounds. -/
def setBits (high step : ℕ) : ℕ → ℕ → BitVec 64 → BitVec 64
  | 0, _, bits => bits
  | n + 1, v, bits =>
    if v ≤ high then setBits high step n (v + step) (bits ||| (1#64 <<< v)) else bits

/-- `parseTerm` -/
def parseTerm (term : List Char) (f : FieldSpec) : Except ParseError (BitVec 64) :=
  match parseStep term f with
  | .error e => .error e
  | .ok (term, step) =>
    match parseBounds term step f with
    | .error e => .error e
    | .ok (low, high) => .ok (setBits high step (high + 1) low 0#64)

/-- One round of the loop of `parseField`. -/
def parseListed (term : List Char) (f : FieldSpec) : Except ParseError (BitVec 64) :=
  let term := trimSpace term
  if term = [] then .error (.emptyTerm f.name) else parseTerm term f

/-- The loop of `parseField`. -/
def parseTerms (f : FieldSpec) : List (List Char) → BitVec 64 → Except ParseError (BitVec 64)
  | [], bits => .ok bits
  | term :: rest, bits =>
    match parseListed term f with
    | .error e => .error e
    | .ok termBits => parseTerms f rest (bits ||| termBits)

/-- `parseField` -/
def parseField (field : List Char) (f : FieldSpec) : Except ParseError (BitVec 64) :=
  parseTerms f (field.splitOn ',') 0#64

/-! ### Text without white space -/

theorem trimSpace_eq {s : List Char} (hs : ∀ c ∈ s, isSpace c = false) : trimSpace s = s := by
  have hdrop : s.dropWhile isSpace = s := by
    rcases s with - | ⟨c, s⟩
    · rfl
    · rw [List.dropWhile_cons, hs c List.mem_cons_self]
      rfl
  rw [trimSpace, hdrop, List.rdropWhile_eq_self_iff]
  exact fun hne ↦ by simp [hs _ (List.getLast_mem hne)]

/-- The characters that separate the parts of a field. -/
def IsSeparator (c : Char) : Prop := c = ',' ∨ c = '/' ∨ c = '-' ∨ c = '*'

theorem not_isSeparator_of_isDigit {c : Char} (hc : c.isDigit = true) : ¬ IsSeparator c := by
  rintro (rfl | rfl | rfl | rfl) <;> cases hc

/-! ### Numbers -/

theorem toNat_of_isDigit {c : Char} (hc : c.isDigit = true) : 48 ≤ c.toNat ∧ c.toNat ≤ 57 := by
  simp only [Char.isDigit, Bool.and_eq_true, decide_eq_true_eq, ge_iff_le,
    UInt32.le_iff_toNat_le] at hc
  exact hc

theorem not_isSpace_of_isDigit {c : Char} (hc : c.isDigit = true) : isSpace c = false := by
  have hnat := toNat_of_isDigit hc
  rw [isSpace, Bool.or_eq_false_iff]
  constructor
  · simp only [List.mem_cons, List.not_mem_nil, or_false, decide_eq_false_iff_not]
    omega
  · rw [decide_eq_false (by omega), Bool.false_and]

theorem parseUint_eq_some {s : List Char} {n : ℕ} :
    parseUint s = some n ↔ Decimal s n ∧ n < 2 ^ 32 := by
  rw [parseUint, Decimal, Option.ite_none_right_eq_some, List.all_eq_true, Option.some.injEq]
  constructor
  · rintro ⟨⟨hne, hdigits, hlt⟩, rfl⟩
    exact ⟨⟨hne, hdigits, rfl⟩, hlt⟩
  · rintro ⟨⟨hne, hdigits, rfl⟩, hlt⟩
    exact ⟨⟨hne, hdigits, hlt⟩, rfl⟩

theorem Decimal.unique {s : List Char} {n n' : ℕ} (h : Decimal s n) (h' : Decimal s n') : n = n' :=
  h.2.2.symm.trans h'.2.2

variable {f : FieldSpec} {s term : List Char} {v n i low high step : ℕ} {bits b : BitVec 64}

/-- A name of the field, in letters of any case. -/
def Named (f : FieldSpec) (s : List Char) (v : ℕ) : Prop := (s.map toLower, v) ∈ f.names

theorem lookup_names : f.names.lookup (s.map toLower) = some v ↔ Named f s v := by
  rw [Named]
  constructor
  · intro h
    obtain ⟨l₁, l₂, heq, -⟩ := List.lookup_eq_some_iff.1 h
    rw [heq]
    simp
  · intro h
    obtain ⟨l₁, l₂, heq⟩ := List.append_of_mem h
    refine List.lookup_eq_some_iff.2 ⟨l₁, l₂, heq, fun p hp ↦ ?_⟩
    have hnodup := f.distinct
    rw [heq, List.map_append, List.nodup_append] at hnodup
    exact bne_iff_ne.2 fun h ↦ hnodup.2.2 p.1 (List.mem_map_of_mem hp) _ (by simp) h.symm

/-- A digit is not the lower case of a letter. -/
theorem not_isLower_toLower {c : Char} (hc : c.isDigit = true) : (toLower c).isLower = false := by
  have hnat := toNat_of_isDigit hc
  have hsame : c.toLower = c := dif_neg fun hupper ↦ by
    have hle : 65 ≤ c.toNat := UInt32.le_iff_toNat_le.1 hupper.1
    omega
  have hlow : ¬ 'a'.val ≤ c.val := fun hlower ↦ by
    have hle : 97 ≤ c.toNat := UInt32.le_iff_toNat_le.1 hlower
    omega
  rw [toLower, if_neg (by omega), if_neg (by omega), hsame]
  exact Bool.and_eq_false_iff.2 (.inl (decide_eq_false hlow))

/-- A name has no digits and no separators. -/
theorem Named.char (h : Named f s v) {c : Char} (hc : c ∈ s) :
    c.isDigit = false ∧ ¬ IsSeparator c := by
  have hlower : (toLower c).isLower = true := (f.letters _ h).2 _ (List.mem_map_of_mem hc)
  constructor
  · by_contra hdigit
    rw [not_isLower_toLower (by simpa using hdigit)] at hlower
    cases hlower
  · rintro (rfl | rfl | rfl | rfl) <;> cases hlower

theorem Decimal.not_named (h : Decimal s n) : ¬ Named f s v := by
  intro hnamed
  obtain ⟨c, hc⟩ := List.exists_mem_of_ne_nil s h.1
  have := h.2.1 c hc
  rw [(hnamed.char hc).1] at this
  cases this

/-- The text is a value of the field: a name, or a number in its bounds, or 7 for Sunday. -/
def Accepts (f : FieldSpec) (s : List Char) (v : ℕ) : Prop :=
  Named f s v ∨ ∃ n, Decimal s n ∧
    if f.name = "day of week" ∧ n = 7 then v = 0 else f.min ≤ n ∧ n ≤ f.max ∧ v = n

theorem Accepts.char (h : Accepts f s v) {c : Char} (hc : c ∈ s) : ¬ IsSeparator c := by
  rcases h with hnamed | ⟨n, hn, -⟩
  · exact (hnamed.char hc).2
  · exact not_isSeparator_of_isDigit (hn.2.1 c hc)

theorem Accepts.ne_nil (h : Accepts f s v) : s ≠ [] := by
  rcases h with hnamed | ⟨n, hdec, -⟩
  · rintro rfl
    exact (f.letters _ hnamed).1 rfl
  · exact hdec.1

theorem Accepts.mem (h : Accepts f s v) : f.min ≤ v ∧ v ≤ f.max := by
  rcases h with hnamed | ⟨n, -, hn⟩
  · exact f.named _ hnamed
  · split_ifs at hn with hsunday
    · rw [hn, f.sunday hsunday.1]
      exact ⟨le_rfl, Nat.zero_le _⟩
    · rw [hn.2.2]
      exact ⟨hn.1, hn.2.1⟩

/-- A text has one value. -/
theorem Accepts.unique {v' : ℕ} (h : Accepts f s v) (h' : Accepts f s v') : v = v' := by
  rcases h with hnamed | ⟨n, hn, hv⟩ <;> rcases h' with hnamed' | ⟨n', hn', hv'⟩
  · exact Option.some.inj ((lookup_names.2 hnamed).symm.trans (lookup_names.2 hnamed'))
  · exact absurd hnamed hn'.not_named
  · exact absurd hnamed' hn.not_named
  · obtain rfl := hn.unique hn'
    split_ifs at hv hv'
    · exact hv.trans hv'.symm
    · exact hv.2.2.trans hv'.2.2.symm

/-- **What `parseValue` accepts**, and the value it returns. -/
theorem parseValue_eq_ok_trimmed : parseValue s f = .ok v ↔ Accepts f (trimSpace s) v := by
  rw [parseValue]
  generalize trimSpace s = s
  rcases hlook : f.names.lookup (s.map toLower) with - | v'
  · have hnot : ¬ Named f s v := fun h ↦ by simp [lookup_names.2 h] at hlook
    rw [Accepts, or_iff_right hnot]
    rcases hnum : parseUint s with - | n
    · refine iff_of_false (by simp) ?_
      rintro ⟨n, hn, hif⟩
      have hlt : n < 2 ^ 32 := by
        have := f.max_lt
        split_ifs at hif <;> omega
      simp [parseUint_eq_some.2 ⟨hn, hlt⟩] at hnum
    · have hn := (parseUint_eq_some.1 hnum).1
      have hself : (∃ n', Decimal s n' ∧ if f.name = "day of week" ∧ n' = 7 then v = 0
          else f.min ≤ n' ∧ n' ≤ f.max ∧ v = n') ↔
          if f.name = "day of week" ∧ n = 7 then v = 0 else f.min ≤ n ∧ n ≤ f.max ∧ v = n :=
        ⟨fun ⟨n', hn', h⟩ ↦ hn.unique hn' ▸ h, fun h ↦ ⟨n, hn, h⟩⟩
      rw [hself]
      dsimp only
      split_ifs with hsunday hrange
      · simp [eq_comm]
      · refine iff_of_false (by simp) fun h ↦ ?_
        omega
      · simp only [Except.ok.injEq]
        constructor
        · rintro rfl
          exact ⟨by omega, by omega, rfl⟩
        · exact fun h ↦ h.2.2.symm
  · have hnamed : Named f s v' := lookup_names.1 hlook
    constructor
    · intro hv
      rw [← Except.ok.inj hv]
      exact .inl hnamed
    · intro h
      rw [Accepts.unique h (.inl hnamed)]

theorem parseValue_eq_ok (hs : ∀ c ∈ s, isSpace c = false) :
    parseValue s f = .ok v ↔ Accepts f s v := by
  rw [parseValue_eq_ok_trimmed, trimSpace_eq hs]

/-! ### Terms -/

/-- **The bits of a term**: the values from `low` to `high`, a step apart. -/
theorem getLsbD_setBits (hstep : 0 < step) (hhigh : high < 64) (hn : high < v + n) :
    (setBits high step n v bits).getLsbD i = true ↔
      bits.getLsbD i = true ∨ ∃ k, i = v + k * step ∧ i ≤ high := by
  induction n generalizing v bits with
  | zero =>
    have hnone : ¬ ∃ k, i = v + k * step ∧ i ≤ high := by
      rintro ⟨k, rfl, hle⟩
      omega
    rw [setBits, or_iff_left hnone]
  | succ n ih =>
    rw [setBits]
    split_ifs with hv
    · rw [ih (by omega), BitVec.getLsbD_or, ← BitVec.twoPow_eq, BitVec.getLsbD_twoPow,
        Bool.or_eq_true, Bool.and_eq_true, decide_eq_true_eq, decide_eq_true_eq, or_assoc]
      refine or_congr Iff.rfl ?_
      constructor
      · rintro (⟨-, rfl⟩ | ⟨k, rfl, hle⟩)
        · exact ⟨0, by omega, hv⟩
        · exact ⟨k + 1, by rw [Nat.succ_mul]; omega, hle⟩
      · rintro ⟨k, rfl, hle⟩
        rcases k with - | k
        · exact .inl ⟨by omega, by omega⟩
        · exact .inr ⟨k, by rw [Nat.succ_mul]; omega, hle⟩
    · have hnone : ¬ ∃ k, i = v + k * step ∧ i ≤ high := by
        rintro ⟨k, rfl, hle⟩
        have := Nat.zero_le (k * step)
        omega
      rw [or_iff_left hnone]

/-- What `parseStep` accepts: a text without a step, or one with a step. -/
theorem parseStep_eq_ok {base : List Char} : parseStep term f = .ok (base, step) ↔
    '/' ∉ term ∧ base = term ∧ step = 1 ∨
      ∃ st, term = base ++ '/' :: st ∧ '/' ∉ base ∧ Decimal st step ∧ 0 < step ∧ step < 2 ^ 32 := by
  rw [parseStep]
  rcases Text.cut_cases '/' term with ⟨hnone, hcut⟩ | ⟨x, st, rfl, hx, hcut⟩
  · rw [hcut]
    simp only [Except.ok.injEq, Prod.mk.injEq]
    constructor
    · rintro ⟨rfl, rfl⟩
      exact .inl ⟨hnone, rfl, rfl⟩
    · rintro (⟨-, rfl, rfl⟩ | ⟨st, rfl, -⟩)
      · exact ⟨rfl, rfl⟩
      · simp at hnone
  · rw [hcut]
    have hstep : ∀ n, parseUint st = some n ↔ Decimal st n ∧ n < 2 ^ 32 :=
      fun n ↦ parseUint_eq_some
    constructor
    · intro hok
      dsimp only at hok
      rcases hnum : parseUint st with - | n
      · simp [hnum] at hok
      · rw [hnum] at hok
        dsimp only at hok
        split_ifs at hok with hzero
        obtain ⟨rfl, rfl⟩ := Prod.mk.inj (Except.ok.inj hok)
        obtain ⟨hdec, hlt⟩ := (hstep n).1 hnum
        exact .inr ⟨st, rfl, hx, hdec, Nat.pos_of_ne_zero hzero, hlt⟩
    · rintro (⟨hnone, -⟩ | ⟨st', heq, hbase, hdec, hpos, hlt⟩)
      · simp at hnone
      · have hcut' := Text.cut_append hbase st'
        rw [← heq, hcut] at hcut'
        obtain ⟨rfl, hst⟩ := Prod.mk.inj hcut'
        obtain rfl := Option.some.inj hst
        dsimp only
        rw [(hstep step).2 ⟨hdec, hlt⟩]
        dsimp only
        rw [if_neg hpos.ne']

/-- A range is accepted if its ends are, in this order. -/
theorem parseBounds_range {x y : List Char} (hs : ∀ c ∈ x ++ '-' :: y, isSpace c = false)
    (hx : '-' ∉ x) : parseBounds (x ++ '-' :: y) step f = .ok (low, high) ↔
      Accepts f x low ∧ Accepts f y high ∧ low ≤ high := by
  have hstar : x ++ '-' :: y ≠ ['*'] := by
    intro h
    have hmem : '-' ∈ ['*'] := h ▸ List.mem_append_right x List.mem_cons_self
    exact absurd hmem (by decide)
  rw [parseBounds, if_neg hstar, Text.cut_append hx,
    ← parseValue_eq_ok fun c hc ↦ hs c (by simp [hc]),
    ← parseValue_eq_ok fun c hc ↦ hs c (by simp [hc])]
  dsimp only
  rcases parseValue x f with e | v
  · simp
  · rcases parseValue y f with e | v'
    · simp
    · dsimp only
      split_ifs with hinv
      · refine iff_of_false (by simp) ?_
        rintro ⟨hv, hv', hle⟩
        rw [Except.ok.inj hv, Except.ok.inj hv'] at hinv
        omega
      · simp only [Except.ok.injEq, Prod.mk.injEq]
        constructor
        · rintro ⟨rfl, rfl⟩
          exact ⟨rfl, rfl, by omega⟩
        · rintro ⟨rfl, rfl, -⟩
          exact ⟨rfl, rfl⟩

/-- A bare value goes on to the end of the field if the step is above 1. -/
theorem parseBounds_value {base : List Char} (hs : ∀ c ∈ base, isSpace c = false)
    (hstar : base ≠ ['*']) (hdash : '-' ∉ base) : parseBounds base step f = .ok (low, high) ↔
      Accepts f base low ∧ high = if 1 < step then f.max else low := by
  rw [parseBounds, if_neg hstar, Text.cut_of_notMem hdash, ← parseValue_eq_ok hs]
  dsimp only
  rcases parseValue base f with e | v
  · simp
  · simp only [Except.ok.injEq, Prod.mk.injEq]
    constructor
    · rintro ⟨rfl, rfl⟩
      exact ⟨rfl, rfl⟩
    · rintro ⟨rfl, rfl⟩
      exact ⟨rfl, rfl⟩

/-- What `parseBounds` accepts: a star, a range, or a bare value. -/
theorem parseBounds_eq_ok {base : List Char} (hs : ∀ c ∈ base, isSpace c = false) :
    parseBounds base step f = .ok (low, high) ↔
      base = ['*'] ∧ low = f.min ∧ high = f.max ∨
      (∃ x y, base = x ++ '-' :: y ∧ Accepts f x low ∧ Accepts f y high ∧ low ≤ high) ∨
      Accepts f base low ∧ high = if 1 < step then f.max else low := by
  have hsep : ∀ {c : Char}, IsSeparator c → c ∈ base → ¬ Accepts f base low :=
    fun hc hmem hacc ↦ hacc.char hmem hc
  constructor
  · intro hok
    by_cases hstar : base = ['*']
    · subst hstar
      obtain ⟨rfl, rfl⟩ := Prod.mk.inj (Except.ok.inj hok)
      exact .inl ⟨rfl, rfl, rfl⟩
    · rcases Text.cut_cases '-' base with ⟨hdash, -⟩ | ⟨x, y, rfl, hx, -⟩
      · exact .inr (.inr ((parseBounds_value hs hstar hdash).1 hok))
      · exact .inr (.inl ⟨x, y, rfl, (parseBounds_range hs hx).1 hok⟩)
  · rintro (⟨rfl, rfl, rfl⟩ | ⟨x, y, rfl, hlow, hhigh⟩ | ⟨hlow, hhigh⟩)
    · rfl
    · have hx : '-' ∉ x := fun h ↦ hlow.char h (.inr (.inr (.inl rfl)))
      exact (parseBounds_range hs hx).2 ⟨hlow, hhigh⟩
    · have hstar : base ≠ ['*'] := by
        rintro rfl
        exact hsep (.inr (.inr (.inr rfl))) List.mem_cons_self hlow
      have hdash : '-' ∉ base := fun h ↦ hsep (.inr (.inr (.inl rfl))) h hlow
      exact (parseBounds_value hs hstar hdash).2 ⟨hlow, hhigh⟩

/-- What a term says: the values from `low` to `high`, `step` apart. -/
def Says (f : FieldSpec) (term : List Char) (low high step : ℕ) : Prop :=
  ∃ base, parseStep term f = .ok (base, step) ∧ parseBounds base step f = .ok (low, high)

theorem Says.step_pos (h : Says f term low high step) : 0 < step := by
  obtain ⟨base, hstep, -⟩ := h
  rcases parseStep_eq_ok.1 hstep with ⟨-, -, rfl⟩ | ⟨-, -, -, -, hpos, -⟩
  · exact Nat.one_pos
  · exact hpos

/-- A term says one thing. -/
theorem Says.unique {low' high' step' : ℕ} (h : Says f term low high step)
    (h' : Says f term low' high' step') : low = low' ∧ high = high' ∧ step = step' := by
  obtain ⟨base, hstep, hbounds⟩ := h
  obtain ⟨base', hstep', hbounds'⟩ := h'
  obtain ⟨rfl, rfl⟩ := Prod.mk.inj (Except.ok.inj (hstep.symm.trans hstep'))
  obtain ⟨rfl, rfl⟩ := Prod.mk.inj (Except.ok.inj (hbounds.symm.trans hbounds'))
  exact ⟨rfl, rfl, rfl⟩

theorem mem_of_parseStep {base : List Char} (h : parseStep term f = .ok (base, step)) {c : Char}
    (hc : c ∈ base) : c ∈ term := by
  rcases parseStep_eq_ok.1 h with ⟨-, rfl, -⟩ | ⟨st, rfl, -⟩
  · exact hc
  · exact List.mem_append_left _ hc

/-- The values of a term are in the bounds of the field. -/
theorem Says.mem (h : Says f term low high step) (hs : ∀ c ∈ term, isSpace c = false) :
    f.min ≤ low ∧ high ≤ f.max := by
  obtain ⟨base, hstep, hbounds⟩ := h
  rcases (parseBounds_eq_ok fun c hc ↦ hs c (mem_of_parseStep hstep hc)).1 hbounds with
    ⟨-, rfl, rfl⟩ | ⟨x, y, -, hlow, hhigh, -⟩ | ⟨hlow, rfl⟩
  · exact ⟨le_rfl, le_rfl⟩
  · exact ⟨hlow.mem.1, hhigh.mem.2⟩
  · refine ⟨hlow.mem.1, ?_⟩
    split_ifs
    · exact le_rfl
    · exact hlow.mem.2

/-- **What `parseTerm` accepts**, and the bits it sets then. -/
theorem parseTerm_eq_ok (hs : ∀ c ∈ term, isSpace c = false) :
    parseTerm term f = .ok b ↔ ∃ low high step, Says f term low high step ∧
      ∀ i, b.getLsbD i = true ↔ ∃ k, i = low + k * step ∧ i ≤ high := by
  have hbits : ∀ {low high step}, Says f term low high step → ∀ i,
      (setBits high step (high + 1) low 0#64).getLsbD i = true ↔
        ∃ k, i = low + k * step ∧ i ≤ high := by
    intro low high step hsaid i
    have hlt := f.max_lt
    have hle := (hsaid.mem hs).2
    rw [getLsbD_setBits hsaid.step_pos (by omega) (by omega)]
    simp
  constructor
  · intro hok
    rw [parseTerm] at hok
    rcases hstep : parseStep term f with e | ⟨base, step⟩
    · simp [hstep] at hok
    · rw [hstep] at hok
      dsimp only at hok
      rcases hbounds : parseBounds base step f with e | ⟨low, high⟩
      · simp [hbounds] at hok
      · rw [hbounds] at hok
        obtain rfl := Except.ok.inj hok
        have hsaid : Says f term low high step := ⟨base, hstep, hbounds⟩
        exact ⟨low, high, step, hsaid, hbits hsaid⟩
  · rintro ⟨low, high, step, hsaid, hb⟩
    obtain ⟨base, hstep, hbounds⟩ := hsaid
    have hself : b = setBits high step (high + 1) low 0#64 := by
      refine BitVec.eq_of_getLsbD_eq fun i _ ↦ ?_
      rw [Bool.eq_iff_iff, hb, hbits ⟨base, hstep, hbounds⟩]
    rw [parseTerm, hstep]
    dsimp only
    rw [hbounds, hself]

/-- The bits of a term that says something. -/
theorem Says.getLsbD (h : Says f term low high step) (hs : ∀ c ∈ term, isSpace c = false)
    (hb : parseTerm term f = .ok b) (i : ℕ) :
    b.getLsbD i = true ↔ ∃ k, i = low + k * step ∧ i ≤ high := by
  obtain ⟨low', high', step', hsaid, hbits⟩ := (parseTerm_eq_ok hs).1 hb
  obtain ⟨rfl, rfl, rfl⟩ := h.unique hsaid
  exact hbits i

/-- A term that says something is accepted. -/
theorem Says.parseTerm (h : Says f term low high step) : ∃ b, parseTerm term f = .ok b := by
  obtain ⟨base, hstep, hbounds⟩ := h
  exact ⟨_, by rw [Cron.parseTerm, hstep]; dsimp only; rw [hbounds]⟩

theorem Says.ne_nil (h : Says f term low high step) : term ≠ [] := by
  rintro rfl
  obtain ⟨base, hstep, hbounds⟩ := h
  rcases parseStep_eq_ok.1 hstep with ⟨-, rfl, -⟩ | ⟨st, hnil, -⟩
  · rcases (parseBounds_eq_ok (by simp)).1 hbounds with ⟨hnil, -⟩ | ⟨x, y, hnil, -⟩ | ⟨hv, -⟩
    · cases hnil
    · simp at hnil
    · exact hv.ne_nil rfl
  · simp at hnil

/-! ### Fields -/

/-- What a term of a list has to say, and the bits it sets then. -/
theorem parseListed_eq_ok (hs : ∀ c ∈ term, isSpace c = false) :
    parseListed term f = .ok b ↔ ∃ low high step, Says f term low high step ∧
      ∀ i, b.getLsbD i = true ↔ ∃ k, i = low + k * step ∧ i ≤ high := by
  rw [parseListed, trimSpace_eq hs]
  split_ifs with hnil
  · refine iff_of_false (by simp) ?_
    rintro ⟨low, high, step, hsaid, -⟩
    exact hsaid.ne_nil hnil
  · exact parseTerm_eq_ok hs

theorem parseTerms_eq_ok {ts : List (List Char)} : (∃ b, parseTerms f ts bits = .ok b) ↔
    ∀ t ∈ ts, ∃ b, parseListed t f = .ok b := by
  induction ts generalizing bits with
  | nil => simp [parseTerms]
  | cons t ts ih =>
    rw [parseTerms, List.forall_mem_cons]
    rcases parseListed t f with e | b
    · simp
    · dsimp only
      rw [ih]
      simp

theorem getLsbD_parseTerms {ts : List (List Char)} (h : parseTerms f ts bits = .ok b) (i : ℕ) :
    b.getLsbD i = true ↔ bits.getLsbD i = true ∨
      ∃ t ∈ ts, ∃ b', parseListed t f = .ok b' ∧ b'.getLsbD i = true := by
  induction ts generalizing bits with
  | nil =>
    rw [← Except.ok.inj h]
    simp
  | cons t ts ih =>
    rw [parseTerms] at h
    rcases ht : parseListed t f with e | b'
    · simp [ht] at h
    · rw [ht] at h
      rw [ih h, BitVec.getLsbD_or, Bool.or_eq_true, or_assoc]
      simp [ht]

/-- **What `parseField` accepts**, and the bits it sets then: every term of the list has to be
accepted, and their bits are joined. -/
theorem parseField_eq_ok {field : List Char} :
    ((∃ b, parseField field f = .ok b) ↔
      ∀ t ∈ field.splitOn ',', ∃ b, parseListed t f = .ok b) ∧
    ∀ b, parseField field f = .ok b → ∀ i, b.getLsbD i = true ↔
      ∃ t ∈ field.splitOn ',', ∃ b', parseListed t f = .ok b' ∧ b'.getLsbD i = true := by
  refine ⟨parseTerms_eq_ok, fun b hb i ↦ ?_⟩
  rw [getLsbD_parseTerms hb]
  simp

/-- **A field in terms of what its terms say.** -/
theorem parseField_terms {field : List Char} (hs : ∀ c ∈ field, isSpace c = false) :
    ((∃ b, parseField field f = .ok b) ↔
      ∀ t ∈ field.splitOn ',', ∃ low high step, Says f t low high step) ∧
    ∀ b, parseField field f = .ok b → ∀ i, b.getLsbD i = true ↔
      ∃ t ∈ field.splitOn ',', ∃ low high step, Says f t low high step ∧
        ∃ k, i = low + k * step ∧ i ≤ high := by
  have hterm : ∀ t ∈ field.splitOn ',', ∀ c ∈ t, isSpace c = false :=
    fun t ht c hc ↦ hs c (Text.mem_of_mem_splitOn ht hc)
  have hlisted : ∀ {t low high step}, t ∈ field.splitOn ',' → Says f t low high step →
      ∃ b, parseListed t f = .ok b ∧
        ∀ i, b.getLsbD i = true ↔ ∃ k, i = low + k * step ∧ i ≤ high := by
    intro t low high step ht hsaid
    obtain ⟨b, hb⟩ := hsaid.parseTerm
    have hbits := hsaid.getLsbD (hterm t ht) hb
    exact ⟨b, (parseListed_eq_ok (hterm t ht)).2 ⟨_, _, _, hsaid, hbits⟩, hbits⟩
  constructor
  · refine parseField_eq_ok.1.trans (forall₂_congr fun t ht ↦ ?_)
    constructor
    · rintro ⟨b, hb⟩
      obtain ⟨low, high, step, hsaid, -⟩ := (parseListed_eq_ok (hterm t ht)).1 hb
      exact ⟨low, high, step, hsaid⟩
    · rintro ⟨low, high, step, hsaid⟩
      obtain ⟨b, hb, -⟩ := hlisted ht hsaid
      exact ⟨b, hb⟩
  · intro b hb i
    rw [parseField_eq_ok.2 b hb]
    refine exists_congr fun t ↦ and_congr_right fun ht ↦ ?_
    constructor
    · rintro ⟨b', hb', hi⟩
      obtain ⟨low, high, step, hsaid, hbits⟩ := (parseListed_eq_ok (hterm t ht)).1 hb'
      exact ⟨low, high, step, hsaid, (hbits i).1 hi⟩
    · rintro ⟨low, high, step, hsaid, hi⟩
      obtain ⟨b', hb', hbits⟩ := hlisted ht hsaid
      exact ⟨b', hb', (hbits i).2 hi⟩

end TaskQueue.Cron
