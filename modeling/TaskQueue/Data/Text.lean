import Mathlib.Data.Int.Notation
import Mathlib.Data.List.Basic
import Mathlib.Data.Nat.Notation

/-!
# Fields joined by a separator

Names made by joining fields with a separator character can be taken apart again at the **last**
separator, as long as the last field does not contain it; the fields before it may hold anything. A
decimal number is such a field (`not_mem_toString`), so a name that ends in one determines the rest
of itself; and the number can be read back (`number_toString`).

A parser goes the other way and cuts at the **first** separator (`cut`). What stands before it is
then free of separators, and what stands after it may hold more of them.
-/

namespace Text

/-- Two lists split at the last occurrence of `a`. -/
theorem append_cons_inj_iff {α : Type*} {a : α} {xs ys xs' ys' : List α} (hys : a ∉ ys)
    (hys' : a ∉ ys') : xs ++ a :: ys = xs' ++ a :: ys' ↔ xs = xs' ∧ ys = ys' := by
  constructor
  · intro heq
    rcases List.append_eq_append_iff.1 heq with ⟨mid, rfl, hmid⟩ | ⟨mid, rfl, hmid⟩
    · rcases mid with _ | ⟨c, mid⟩
      · exact ⟨(List.append_nil xs).symm, (List.cons.inj hmid).2⟩
      · obtain ⟨-, rfl⟩ := List.cons.inj hmid
        exact absurd (List.mem_append_right _ List.mem_cons_self) hys
    · rcases mid with _ | ⟨c, mid⟩
      · exact ⟨List.append_nil xs', (List.cons.inj hmid).2.symm⟩
      · obtain ⟨-, rfl⟩ := List.cons.inj hmid
        exact absurd (List.mem_append_right _ List.mem_cons_self) hys'
  · rintro ⟨rfl, rfl⟩
    rfl

/-- A decimal number is written with digits and a minus sign. -/
theorem not_mem_toString {c : Char} (hdigit : c.isDigit = false) (hminus : c ≠ '-') (z : ℤ) :
    c ∉ (toString z).toList := by
  have hnat : ∀ n : ℕ, c ∉ n.repr.toList := by
    intro n hmem
    rw [Nat.toList_repr] at hmem
    rw [Nat.isDigit_of_mem_toDigits (by decide) (by decide) hmem] at hdigit
    cases hdigit
  rw [Int.toString_eq_repr, Int.repr_eq_if]
  split_ifs
  · exact hnat _
  · rw [String.toList_append, List.mem_append]
    rintro (hmem | hmem)
    · exact hminus (List.mem_singleton.1 hmem)
    · exact hnat _ hmem

/-- The number that a text of digits, maybe after a minus sign, denotes. -/
def number : List Char → ℤ
  | '-' :: s => -Nat.ofDigitChars 10 s 0
  | s => Nat.ofDigitChars 10 s 0

/-- **A decimal number can be read back.** -/
theorem number_toString (z : ℤ) : number (toString z).toList = z := by
  rw [Int.toString_eq_repr, Int.repr_eq_if]
  split_ifs with hsign
  · rw [Nat.toList_repr]
    unfold number
    split
    · next s heq =>
      -- a number without a sign begins with a digit
      have hdigit : ('-' : Char).isDigit = true :=
        Nat.isDigit_of_mem_toDigits (by decide) (by decide) (heq ▸ List.mem_cons_self)
      cases hdigit
    · rw [Nat.ofDigitChars_ten_toDigits, Int.toNat_of_nonneg hsign]
  · rw [String.toList_append, Nat.toList_repr]
    show -(Nat.ofDigitChars 10 (Nat.toDigits 10 (-z).toNat) 0 : ℤ) = z
    rw [Nat.ofDigitChars_ten_toDigits]
    omega

theorem toString_inj {z z' : ℤ} : toString z = toString z' ↔ z = z' :=
  ⟨fun heq ↦ by rw [← number_toString z, heq, number_toString], congrArg toString⟩

/-- **A name that ends in a number** after a separator determines what stands before it. -/
theorem numbered_inj (sep : Char) (hdigit : sep.isDigit = false) (hminus : sep ≠ '-')
    {s s' : String} {z z' : ℤ} :
    s ++ String.singleton sep ++ toString z = s' ++ String.singleton sep ++ toString z' ↔
      s = s' ∧ z = z' := by
  rw [← String.toList_inj]
  simp only [String.toList_append, String.toList_singleton, List.append_assoc, List.cons_append,
    List.nil_append]
  rw [append_cons_inj_iff (not_mem_toString hdigit hminus z) (not_mem_toString hdigit hminus z'),
    String.toList_inj, String.toList_inj, toString_inj]

/-! ### The first separator -/

section Cut

variable {α : Type*} [DecidableEq α]

/-- What stands before the first separator, and what stands after it if there is one. -/
def cut (sep : α) : List α → List α × Option (List α)
  | [] => ([], none)
  | a :: l => if a = sep then ([], some l) else ((a :: (cut sep l).1), (cut sep l).2)

theorem cut_of_notMem {sep : α} {l : List α} (hsep : sep ∉ l) : cut sep l = (l, none) := by
  induction l with
  | nil => rfl
  | cons a l ih =>
    obtain ⟨hne, hl⟩ := List.ne_and_not_mem_of_not_mem_cons hsep
    rw [cut, if_neg (Ne.symm hne), ih hl]

theorem cut_append {sep : α} {xs : List α} (hsep : sep ∉ xs) (ys : List α) :
    cut sep (xs ++ sep :: ys) = (xs, some ys) := by
  induction xs with
  | nil => exact if_pos rfl
  | cons a xs ih =>
    obtain ⟨hne, hxs⟩ := List.ne_and_not_mem_of_not_mem_cons hsep
    rw [List.cons_append, cut, if_neg (Ne.symm hne), ih hxs]

/-- **A text has no separator, or is cut at the first one.** -/
theorem cut_cases (sep : α) (l : List α) :
    sep ∉ l ∧ cut sep l = (l, none) ∨
      ∃ xs ys, l = xs ++ sep :: ys ∧ sep ∉ xs ∧ cut sep l = (xs, some ys) := by
  by_cases hsep : sep ∈ l
  · obtain ⟨xs, ys, rfl, hxs⟩ := List.eq_append_cons_of_mem hsep
    exact .inr ⟨xs, ys, rfl, hxs, cut_append hxs ys⟩
  · exact .inl ⟨hsep, cut_of_notMem hsep⟩

/-- A name, alone or with an argument behind a separator. -/
def join (sep : α) : List α × Option (List α) → List α
  | (xs, none) => xs
  | (xs, some ys) => xs ++ sep :: ys

/-- A name without separators and its argument can be read back, whatever the argument is. -/
theorem cut_join {sep : α} {p : List α × Option (List α)} (hsep : sep ∉ p.1) :
    cut sep (join sep p) = p := by
  rcases p with ⟨xs, - | ys⟩
  · exact cut_of_notMem hsep
  · exact cut_append hsep ys

end Cut

/-! ### The parts of a text -/

section Parts

variable {α : Type*}

/-- The parts of a text are made of its characters, and have no separator in them. -/
theorem of_mem_splitOnP {p : α → Bool} {l t : List α} (ht : t ∈ l.splitOnP p) {c : α} (hc : c ∈ t) :
    c ∈ l ∧ p c = false := by
  induction l generalizing t with
  | nil =>
    rw [List.splitOnP_nil, List.mem_singleton] at ht
    simp [ht] at hc
  | cons a l ih =>
    have hcons : ∀ {t}, t ∈ l.splitOnP p → c ∈ t → c ∈ a :: l ∧ p c = false :=
      fun hmem hct ↦ (ih hmem hct).imp_left (List.mem_cons_of_mem a)
    rw [List.splitOnP_cons_eq_if_modifyHead] at ht
    split_ifs at ht with hsep
    · rcases List.mem_cons.1 ht with rfl | ht
      · cases hc
      · exact hcons ht hc
    · rcases hl : l.splitOnP p with - | ⟨x, rest⟩
      · exact absurd hl (List.splitOnP_ne_nil _ _)
      · rw [hl] at ht hcons
        rcases List.mem_cons.1 ht with rfl | ht
        · rcases List.mem_cons.1 hc with rfl | hc
          · exact ⟨List.mem_cons_self, by simpa using hsep⟩
          · exact hcons List.mem_cons_self hc
        · exact hcons (List.mem_cons_of_mem x ht) hc

theorem mem_of_mem_splitOn [DecidableEq α] {sep : α} {l t : List α} (ht : t ∈ l.splitOn sep) {c : α}
    (hc : c ∈ t) : c ∈ l :=
  (of_mem_splitOnP ht hc).1

/-- The words of a text, between runs of separators. -/
def words (p : α → Bool) (l : List α) : List (List α) := (l.splitOnP p).filter fun w ↦ !w.isEmpty

theorem of_mem_words {p : α → Bool} {l w : List α} (hw : w ∈ words p l) {c : α} (hc : c ∈ w) :
    p c = false :=
  (of_mem_splitOnP (List.mem_of_mem_filter hw) hc).2

end Parts

end Text
