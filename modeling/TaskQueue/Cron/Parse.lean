import TaskQueue.Cron.Grammar
import TaskQueue.Cron.Schedule

/-!
# Parsing a specification

`Parse` of `internal/cron/cron.go`: a specification is `@every` with a duration, a descriptor, which
stands for five fields, or five fields. `time.ParseDuration` is a parameter.

A schedule that came from fields is **well formed** (`Parsed`): each mask has a bit, and none out of
the bounds of its field. `parse_ok` says that `Parse` returns nothing else, but for the periods of
`@every`.
-/

namespace TaskQueue.Cron

/-- The descriptors, and the fields they stand for. -/
def descriptors : List (List Char × List Char) :=
  [(['@', 'y', 'e', 'a', 'r', 'l', 'y'], ['0', ' ', '0', ' ', '1', ' ', '1', ' ', '*']),
    (['@', 'a', 'n', 'n', 'u', 'a', 'l', 'l', 'y'], ['0', ' ', '0', ' ', '1', ' ', '1', ' ', '*']),
    (['@', 'm', 'o', 'n', 't', 'h', 'l', 'y'], ['0', ' ', '0', ' ', '1', ' ', '*', ' ', '*']),
    (['@', 'w', 'e', 'e', 'k', 'l', 'y'], ['0', ' ', '0', ' ', '*', ' ', '*', ' ', '0']),
    (['@', 'd', 'a', 'i', 'l', 'y'], ['0', ' ', '0', ' ', '*', ' ', '*', ' ', '*']),
    (['@', 'm', 'i', 'd', 'n', 'i', 'g', 'h', 't'], ['0', ' ', '0', ' ', '*', ' ', '*', ' ', '*']),
    (['@', 'h', 'o', 'u', 'r', 'l', 'y'], ['0', ' ', '*', ' ', '*', ' ', '*', ' ', '*'])]

/-- "@every " -/
def everyDescriptor : List Char := ['@', 'e', 'v', 'e', 'r', 'y', ' ']

/-- The fields in their order; the first one that is refused decides the error. -/
def parseFields (minute hour dom month dow : List Char) : Except ParseError Schedule := do
  let minuteBits ← parseField minute minuteSpec
  let hourBits ← parseField hour hourSpec
  let domBits ← parseField dom domSpec
  let monthBits ← parseField month monthSpec
  let dowBits ← parseField dow dowSpec
  return {
    minute := minuteBits
    hour := hourBits
    dom := domBits
    month := monthBits
    dow := dowBits
    domStar := dom = ['*']
    dowStar := dow = ['*']
    every := 0 }

/-- `Parse` -/
def parse (parseDuration : List Char → Except String Duration) (spec : List Char) :
    Except ParseError Schedule :=
  let spec := trimSpace spec
  if spec = [] then .error .emptySpecification
  else if everyDescriptor.isPrefixOf spec then
    match parseDuration (trimSpace (spec.drop everyDescriptor.length)) with
    | .error err => .error (.everyDuration err)
    | .ok d =>
      if d ≤ 0 then .error (.everyNotPositive d)
      else .ok ⟨0, 0, 0, 0, 0, false, false, d⟩
  else
    let spec := (descriptors.lookup (spec.map toLower)).getD spec
    match Text.words isSpace spec with
    | [minute, hour, dom, month, dow] => parseFields minute hour dom month dow
    | fields => .error (.fieldCount fields.length spec)

/-! ### What is accepted is well formed -/

/-- A mask of a field: it has a bit, and none out of bounds. -/
structure IsMask (f : FieldSpec) (bits : BitVec 64) : Prop where
  nonempty : ∃ i, bits.getLsbD i = true
  bounds : ∀ i, bits.getLsbD i = true → f.min ≤ i ∧ i ≤ f.max

variable {f : FieldSpec} {bits : BitVec 64}

theorem Says.low_le_high {t : List Char} {low high step : ℕ} (h : Says f t low high step)
    (hs : ∀ c ∈ t, isSpace c = false) (hf : f.min ≤ f.max) : low ≤ high := by
  obtain ⟨base, hstep, hbounds⟩ := h
  rcases (parseBounds_eq_ok fun c hc ↦ hs c (mem_of_parseStep hstep hc)).1 hbounds with
    ⟨-, rfl, rfl⟩ | ⟨x, y, -, -, -, hle⟩ | ⟨hlow, rfl⟩
  · exact hf
  · exact hle
  · split_ifs
    · exact hlow.mem.2
    · exact le_rfl

/-- The mask of a field. -/
theorem isMask_of_parseField {field : List Char} (hs : ∀ c ∈ field, isSpace c = false)
    (hf : f.min ≤ f.max) (h : parseField field f = .ok bits) : IsMask f bits := by
  refine ⟨?_, (parseField_ok_iff hs).2 bits h⟩
  obtain ⟨t, ht⟩ := List.exists_mem_of_ne_nil (field.splitOn ',') (List.splitOnP_ne_nil _ _)
  obtain ⟨low, high, step, hsaid⟩ := (parseField_terms hs).1.1 ⟨bits, h⟩ t ht
  have hterm : ∀ c ∈ t, isSpace c = false := fun c hc ↦ hs c (Text.mem_of_mem_splitOn ht hc)
  exact ⟨low, ((parseField_terms hs).2 bits h low).2
    ⟨t, ht, low, high, step, hsaid, 0, by simp, hsaid.low_le_high hterm hf⟩⟩

/-- A schedule of five fields. -/
structure Schedule.Parsed (s : Schedule) : Prop where
  minute : IsMask minuteSpec s.minute
  hour : IsMask hourSpec s.hour
  dom : IsMask domSpec s.dom
  month : IsMask monthSpec s.month
  dow : IsMask dowSpec s.dow
  every : s.every = 0

/-- Where a sequence of checks succeeds, the first of them does. -/
theorem exists_of_bind_eq_ok {ε α β : Type} {x : Except ε α} {g : α → Except ε β} {b : β}
    (h : (x >>= g) = .ok b) : ∃ a, x = .ok a ∧ g a = .ok b := by
  rcases x with e | a
  · cases h
  · exact ⟨a, rfl, h⟩

theorem parsed_of_parseFields {minute hour dom month dow : List Char} {s : Schedule}
    (hs : ∀ field ∈ [minute, hour, dom, month, dow], ∀ c ∈ field, isSpace c = false)
    (h : parseFields minute hour dom month dow = .ok s) : s.Parsed := by
  simp only [List.mem_cons, List.not_mem_nil, or_false, forall_eq_or_imp, forall_eq] at hs
  obtain ⟨hminute, hhour, hdom, hmonth, hdow⟩ := hs
  obtain ⟨minuteBits, h₁, h⟩ := exists_of_bind_eq_ok h
  obtain ⟨hourBits, h₂, h⟩ := exists_of_bind_eq_ok h
  obtain ⟨domBits, h₃, h⟩ := exists_of_bind_eq_ok h
  obtain ⟨monthBits, h₄, h⟩ := exists_of_bind_eq_ok h
  obtain ⟨dowBits, h₅, h⟩ := exists_of_bind_eq_ok h
  obtain rfl := Except.ok.inj h
  exact ⟨isMask_of_parseField hminute (by decide) h₁, isMask_of_parseField hhour (by decide) h₂,
    isMask_of_parseField hdom (by decide) h₃, isMask_of_parseField hmonth (by decide) h₄,
    isMask_of_parseField hdow (by decide) h₅, rfl⟩

/-- **`Parse` returns a period or a well-formed schedule of fields.** -/
theorem parse_ok {parseDuration : List Char → Except String Duration} {spec : List Char}
    {s : Schedule} (h : parse parseDuration spec = .ok s) : 0 < s.every ∨ s.Parsed := by
  unfold parse at h
  dsimp only at h
  split_ifs at h with hempty hevery
  · rcases hd : parseDuration (trimSpace ((trimSpace spec).drop everyDescriptor.length)) with e | d
    · simp [hd] at h
    · rw [hd] at h
      dsimp only at h
      split_ifs at h with hpos
      obtain rfl := Except.ok.inj h
      exact .inl (not_le.1 hpos)
  · refine .inr ?_
    split at h
    next minute hour dom month dow hwords =>
      refine parsed_of_parseFields (fun field hfield c hc ↦ ?_) h
      rw [← hwords] at hfield
      exact Text.of_mem_words hfield hc
    next => cases h

end TaskQueue.Cron
