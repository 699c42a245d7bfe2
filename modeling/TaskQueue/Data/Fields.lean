import Mathlib.Algebra.BigOperators.Group.List.Defs
import Mathlib.Algebra.Group.Int.Defs
import Mathlib.Algebra.Group.Nat.Defs
import Mathlib.Data.List.Nodup
import Mathlib.Data.Nat.Basic
import Mathlib.Order.Basic
import Mathlib.Order.Lattice
import TaskQueue.Data.Text

/-!
# Hashes of byte strings

A hash maps field names to byte strings. It is written a few fields at a time (`Fields.set`) and
read back as **one flat list** of names and values, in an order that nobody promises (`Lists`). A
reader that goes through the list pairwise and keeps what it finds gets the hash back, whatever the
order was (`collect_of_lists`).

**Text and numbers** travel as byte strings too. A text is its UTF-8 encoding. An integer is its
decimal text, and `int64` reads one back like the parsers that come with a language: a text that is
no number is 0, and a number that does not fit in 64 bits is cut to the nearest one that does.
-/

/-- A byte string. -/
abbrev Bulk := List UInt8

namespace Bulk

/-! ### Text -/

/-- A text as a byte string. -/
def ofString (s : String) : Bulk := s.toUTF8.data.toList

/-- A byte string as a text; bytes that are not UTF-8 are read as the empty text. -/
def text (b : Bulk) : String := (String.fromUTF8? ⟨b.toArray⟩).getD ""

@[simp] theorem text_ofString (s : String) : text (ofString s) = s := by
  have hvalid : s.toUTF8.IsValidUTF8 := s.isValidUTF8
  rw [text, ofString, Array.toArray_toList, String.fromUTF8?, dif_pos hvalid]
  rfl

@[simp] theorem ofString_inj {s s' : String} : ofString s = ofString s' ↔ s = s' :=
  ⟨fun h ↦ by simpa using congrArg text h, congrArg ofString⟩

@[simp] theorem ofString_eq_nil {s : String} : ofString s = [] ↔ s = "" := by
  rw [show ([] : Bulk) = ofString "" from rfl, ofString_inj]

theorem ofString_append (s s' : String) : ofString (s ++ s') = ofString s ++ ofString s' := by
  rw [ofString, String.toUTF8_eq_toByteArray, String.toByteArray_append, ByteArray.data_append,
    Array.toList_append]
  rfl

/-- A text is encoded character by character. -/
theorem ofString_eq_flatMap (s : String) : ofString s = s.toList.flatMap String.utf8EncodeChar := by
  rw [ofString, String.toUTF8_eq_toByteArray, ← String.utf8Encode_toList]
  simp [List.utf8Encode]

/-- A byte of a text is a byte of one of its characters. -/
theorem exists_of_mem_ofString {b : UInt8} {s : String} (hb : b ∈ ofString s) :
    ∃ c ∈ s.toList, b ∈ String.utf8EncodeChar c := by
  rw [ofString_eq_flatMap] at hb
  exact List.mem_flatMap.1 hb

/-! ### Numbers -/

/-- The digits of a number without a sign. -/
def digits (s : List Char) : Option ℕ :=
  if s ≠ [] ∧ s.all Char.isDigit then some (Nat.ofDigitChars 10 s 0) else none

/-- The 64-bit integer a text denotes, with an optional sign. -/
def parse : List Char → ℤ
  | '-' :: s => ((digits s).map fun n : ℕ ↦ max (-2 ^ 63) (-(n : ℤ))).getD 0
  | '+' :: s => ((digits s).map fun n : ℕ ↦ min (2 ^ 63 - 1) (n : ℤ)).getD 0
  | s => ((digits s).map fun n : ℕ ↦ min (2 ^ 63 - 1) (n : ℤ)).getD 0

/-- The 64-bit integer a byte string denotes. -/
def int64 (b : Bulk) : ℤ := parse (text b).toList

/-- An integer as a byte string. -/
def decimal (n : ℤ) : Bulk := ofString (toString n)

theorem digits_repr (n : ℕ) : digits n.repr.toList = some n := by
  have hall : (Nat.toDigits 10 n).all Char.isDigit = true :=
    List.all_eq_true.2 fun _ hc ↦ Nat.isDigit_of_mem_toDigits (by decide) (by decide) hc
  rw [Nat.toList_repr, digits, if_pos ⟨Nat.toDigits_ne_nil, hall⟩, Nat.ofDigitChars_ten_toDigits]

/-- A number without a sign is read as such: it does not begin with one. -/
theorem parse_repr (n : ℕ) : parse n.repr.toList = min (2 ^ 63 - 1) (n : ℤ) := by
  have hdigits := digits_repr n
  have hhead : ∀ c s, n.repr.toList = c :: s → c.isDigit = true := by
    intro c s heq
    rw [Nat.toList_repr] at heq
    exact Nat.isDigit_of_mem_toDigits (by decide) (by decide) (heq ▸ List.mem_cons_self)
  unfold parse
  split
  · next s heq => cases hhead '-' s heq
  · next s heq => cases hhead '+' s heq
  · rw [hdigits]
    rfl

/-- **A 64-bit integer survives its decimal text.** -/
theorem int64_decimal {n : ℤ} (hlow : -2 ^ 63 ≤ n) (hhigh : n < 2 ^ 63) :
    int64 (decimal n) = n := by
  rw [int64, decimal, text_ofString, Int.toString_eq_repr, Int.repr_eq_if]
  split_ifs with hsign
  · rw [parse_repr]
    omega
  · rw [String.toList_append, show "-".toList = ['-'] from rfl]
    rw [List.singleton_append, parse, digits_repr]
    simp only [Option.map_some, Option.getD_some]
    omega

theorem decimal_inj {z z' : ℤ} : decimal z = decimal z' ↔ z = z' := by
  rw [decimal, decimal, ofString_inj, Text.toString_inj]

/-- A digit is one byte. -/
theorem byte_of_isDigit {c : Char} (hdigit : c.isDigit = true) {b : UInt8}
    (hb : b ∈ String.utf8EncodeChar c) : 48 ≤ b ∧ b ≤ 57 := by
  rw [Char.isDigit_iff_toNat] at hdigit
  have hsize : c.utf8Size = 1 := by
    rw [Char.utf8Size_eq_one_iff, UInt32.le_iff_toNat_le]
    exact hdigit.2.trans (by decide)
  rw [String.utf8EncodeChar_eq_singleton hsize, List.mem_singleton] at hb
  subst hb
  have hbyte : c.val.toUInt8.toNat = c.toNat := by
    rw [UInt32.toNat_toUInt8]
    exact Nat.mod_eq_of_lt (hdigit.2.trans_lt (by decide))
  rw [UInt8.le_iff_toNat_le, UInt8.le_iff_toNat_le, hbyte]
  exact hdigit

/-- A decimal number is written with the bytes of digits and of a minus sign. -/
theorem mem_decimal {b : UInt8} {z : ℤ} (hb : b ∈ decimal z) : 48 ≤ b ∧ b ≤ 57 ∨ b = 45 := by
  obtain ⟨c, hc, hb⟩ := exists_of_mem_ofString hb
  by_cases hminus : c = '-'
  · subst hminus
    exact .inr (List.mem_singleton.1 hb)
  · have hdigit : c.isDigit = true := by
      by_contra hdigit
      exact Text.not_mem_toString (Bool.eq_false_iff.2 hdigit) hminus z hc
    exact .inl (byte_of_isDigit hdigit hb)

/-- **A byte string that ends in a number** after a separator determines what stands before it. -/
theorem numbered_inj {sep : UInt8} (hdigit : sep < 48 ∨ 57 < sep) (hminus : sep ≠ 45) {b b' : Bulk}
    {z z' : ℤ} : b ++ sep :: decimal z = b' ++ sep :: decimal z' ↔ b = b' ∧ z = z' := by
  have hsep : ∀ z, sep ∉ decimal z := by
    intro z hmem
    rcases mem_decimal hmem with ⟨hlow, hhigh⟩ | heq
    · exact hdigit.elim (UInt8.not_lt.2 hlow) (UInt8.not_lt.2 hhigh)
    · exact hminus heq
  rw [Text.append_cons_inj_iff (hsep z) (hsep z'), decimal_inj]

end Bulk

open Bulk

/-! ### Hashes -/

/-- A hash: the value of every field that is set. -/
abbrev Fields := Bulk → Option Bulk

namespace Fields

/-- The hash without fields. -/
def empty : Fields := fun _ ↦ none

/-- Write some fields, in their order. -/
def set : Fields → List (String × Bulk) → Fields
  | f, [] => f
  | f, (k, v) :: l => set (Function.update f (ofString k) (some v)) l

/-- Add to a field that holds an integer; one that is not set counts as 0. -/
def incr (f : Fields) (k : String) (n : ℤ) : Fields :=
  f.set [(k, decimal (int64 ((f (ofString k)).getD []) + n))]

/-- The list holds every field of the hash once, names and values alternating, in some order. -/
def Lists (f : Fields) (flat : List Bulk) : Prop :=
  ∃ pairs : List (Bulk × Bulk), flat = pairs.flatMap (fun p ↦ [p.1, p.2]) ∧
    (pairs.map Prod.fst).Nodup ∧ ∀ k v, (k, v) ∈ pairs ↔ f k = some v

/-- Keep what a flat list says, pair by pair; `none` is an element that is no byte string, and a
pair with one is passed over. -/
def collect : List (Option Bulk) → Fields → Fields
  | some k :: some v :: rest, f => collect rest (Function.update f k (some v))
  | _ :: _ :: rest, f => collect rest f
  | _, f => f

variable {f : Fields}

/-! ### Writing -/

section Set

variable {l l' : List (String × Bulk)}

theorem set_of_notMem {k : Bulk} (hk : ∀ p ∈ l, k ≠ ofString p.1) : f.set l k = f k := by
  induction l generalizing f with
  | nil => rfl
  | cons p l ih =>
    rw [List.forall_mem_cons] at hk
    rw [set, ih hk.2, Function.update_of_ne hk.1]

theorem set_of_mem (hnodup : (l.map Prod.fst).Nodup) {p : String × Bulk} (hp : p ∈ l) :
    f.set l (ofString p.1) = some p.2 := by
  induction l generalizing f with
  | nil => cases hp
  | cons q l ih =>
    rw [List.map_cons, List.nodup_cons] at hnodup
    rcases List.mem_cons.1 hp with rfl | hp
    · rw [set, set_of_notMem, Function.update_self]
      intro q hq heq
      exact hnodup.1 (ofString_inj.1 heq ▸ List.mem_map_of_mem hq)
    · exact ih hnodup.2 hp

/-- **Overwriting fields that are there** replaces their values in the list they were written
from. -/
theorem set_set (hl : (l.map Prod.fst).Nodup) (hl' : (l'.map Prod.fst).Nodup)
    (hsub : ∀ p ∈ l', p.1 ∈ l.map Prod.fst) :
    (f.set l).set l' = f.set (l.map fun p ↦ (p.1, (l'.lookup p.1).getD p.2)) := by
  have hkeys : ((l.map fun p ↦ (p.1, (l'.lookup p.1).getD p.2)).map Prod.fst).Nodup := by
    rwa [List.map_map]
  have hmem : ∀ p ∈ l, f.set (l.map fun p ↦ (p.1, (l'.lookup p.1).getD p.2)) (ofString p.1) =
      some ((l'.lookup p.1).getD p.2) := fun p hp ↦
    set_of_mem (p := (p.1, (l'.lookup p.1).getD p.2)) hkeys (List.mem_map_of_mem hp)
  funext k
  by_cases hk : ∃ p ∈ l, k = ofString p.1
  · obtain ⟨p, hp, rfl⟩ := hk
    rw [hmem p hp]
    rcases hlook : l'.lookup p.1 with - | v
    · rw [set_of_notMem, set_of_mem hl hp]
      · rfl
      · intro q hq heq
        simpa [ofString_inj.1 heq] using List.lookup_eq_none_iff.1 hlook q hq
    · obtain ⟨l₁, l₂, rfl, -⟩ := List.lookup_eq_some_iff.1 hlook
      exact set_of_mem (p := (p.1, v)) hl' (List.mem_append_right l₁ List.mem_cons_self)
  · push Not at hk
    rw [set_of_notMem, set_of_notMem hk, set_of_notMem]
    · intro q hq
      obtain ⟨p, hp, rfl⟩ := List.mem_map.1 hq
      exact hk p hp
    · intro q hq heq
      obtain ⟨p, hp, hpq⟩ := List.mem_map.1 (hsub q hq)
      exact hk p hp (heq.trans (congrArg ofString hpq.symm))

end Set

/-! ### Reading -/

theorem collect_pairs (pairs : List (Bulk × Bulk)) (hnodup : (pairs.map Prod.fst).Nodup) :
    ∀ g : Fields, (∀ k v, (k, v) ∈ pairs →
      collect ((pairs.flatMap fun p ↦ [p.1, p.2]).map some) g k = some v) ∧
    ∀ k, k ∉ pairs.map Prod.fst →
      collect ((pairs.flatMap fun p ↦ [p.1, p.2]).map some) g k = g k := by
  induction pairs with
  | nil => exact fun g ↦ ⟨by simp, fun k _ ↦ rfl⟩
  | cons p pairs ih =>
    intro g
    rw [List.map_cons, List.nodup_cons] at hnodup
    obtain ⟨hin, hout⟩ := ih hnodup.2 (Function.update g p.1 (some p.2))
    refine ⟨fun k v hmem ↦ ?_, fun k hk ↦ ?_⟩
    · rcases List.mem_cons.1 hmem with rfl | hmem
      · exact (hout _ hnodup.1).trans (Function.update_self _ _ _)
      · exact hin k v hmem
    · rw [List.map_cons, List.mem_cons, not_or] at hk
      exact (hout k hk.2).trans (Function.update_of_ne hk.1 _ _)

/-- **The order of the list does not matter.** -/
theorem collect_of_lists {flat : List Bulk} (hflat : f.Lists flat) :
    collect (flat.map some) empty = f := by
  obtain ⟨pairs, rfl, hnodup, hpairs⟩ := hflat
  obtain ⟨hin, hout⟩ := collect_pairs pairs hnodup empty
  funext k
  rcases hk : f k with - | v
  · refine hout k fun hmem ↦ ?_
    obtain ⟨⟨k', v⟩, hp, rfl⟩ := List.mem_map.1 hmem
    rw [(hpairs _ _).1 hp] at hk
    cases hk
  · exact hin k v ((hpairs k v).2 hk)

/-- Fields that were written can be listed in any order. -/
theorem lists_set {l l' : List (String × Bulk)} (hnodup : (l.map Prod.fst).Nodup)
    (hperm : l'.Perm l) :
    (empty.set l).Lists (l'.flatMap fun p ↦ [ofString p.1, p.2]) := by
  have hnodup' : (l'.map Prod.fst).Nodup := (hperm.map Prod.fst).nodup_iff.2 hnodup
  refine ⟨l'.map fun p ↦ (ofString p.1, p.2), by simp [List.flatMap_map], ?_, fun k v ↦ ?_⟩
  · have hmap : (l'.map fun p ↦ (ofString p.1, p.2)).map Prod.fst =
        (l'.map Prod.fst).map ofString := by simp
    rw [hmap]
    exact hnodup'.map fun _ _ ↦ ofString_inj.1
  · constructor
    · intro hmem
      obtain ⟨p, hp, ⟨⟩⟩ := List.mem_map.1 hmem
      exact set_of_mem hnodup (hperm.mem_iff.1 hp)
    · intro hset
      by_cases hk : ∃ p ∈ l, k = ofString p.1
      · obtain ⟨p, hp, rfl⟩ := hk
        obtain rfl := Option.some.inj ((set_of_mem hnodup hp).symm.trans hset)
        exact List.mem_map.2 ⟨p, hperm.mem_iff.2 hp, rfl⟩
      · push Not at hk
        rw [set_of_notMem hk] at hset
        cases hset

theorem even_of_lists {flat : List Bulk} (hflat : f.Lists flat) : flat.length % 2 = 0 := by
  obtain ⟨pairs, rfl, -⟩ := hflat
  rw [List.length_flatMap]
  simp

end Fields
