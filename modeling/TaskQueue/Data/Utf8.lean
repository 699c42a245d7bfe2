import Mathlib.Data.String.Basic
import TaskQueue.Data.Fields

/-!
# The order of texts is the order of their bytes

Two ways to compare texts: character by character, by their code points, or byte by byte in their
UTF-8 encoding, as a program does that has the bytes only. They agree (`ofString_strictMono`),
because the encoding was made for it: the first byte of a character tells its length and grows with
it, and characters of one length are written digit by digit in base 64, the highest first. So of two
different characters the encoding of the smaller one is smaller **whatever follows**
(`encodeChar_append_lt`).
-/

/-- Bytes are ordered as the numbers they are. -/
instance UInt8.byteOrder : LinearOrder UInt8 where
  le_refl := UInt8.le_refl
  le_trans _ _ _ := UInt8.le_trans
  lt_iff_le_not_ge a b := by
    rw [UInt8.lt_iff_toNat_lt, UInt8.le_iff_toNat_le, UInt8.le_iff_toNat_le]
    omega
  le_antisymm _ _ := UInt8.le_antisymm
  le_total := UInt8.le_total
  toDecidableLE := inferInstance
  toDecidableEq := inferInstance
  toDecidableLT := inferInstance

namespace Bulk

theorem cons_ofNat_lt_iff {m n : ℕ} (hm : m < 256) (hn : n < 256) {x y : Bulk} :
    UInt8.ofNat m :: x < UInt8.ofNat n :: y ↔ m < n ∨ m = n ∧ x < y := by
  rw [List.cons_lt_cons_iff, UInt8.lt_iff_toNat_lt, ← UInt8.toNat_inj, UInt8.toNat_ofNat',
    UInt8.toNat_ofNat', Nat.mod_eq_of_lt hm, Nat.mod_eq_of_lt hn]

/-- The smaller character has the smaller encoding, whatever follows. -/
theorem encodeChar_append_lt {c d : Char} (h : c < d) (x y : Bulk) :
    String.utf8EncodeChar c ++ x < String.utf8EncodeChar d ++ y := by
  have hlt : c.val.toNat < d.val.toNat := UInt32.lt_iff_toNat_lt.1 h
  have hmax : d.val.toNat < 1114112 := by
    rcases d.valid with hlow | hhigh
    · have : d.val.toNat < 55296 := UInt32.lt_iff_toNat_lt.1 (show d.val < 55296 from hlow)
      omega
    · exact hhigh.2
  rw [String.utf8EncodeChar, String.utf8EncodeChar]
  generalize c.val.toNat = v at hlt
  generalize d.val.toNat = w at hlt hmax
  -- the lengths, 1 to 4, of both: the first of them is not the longer one
  split_ifs <;> first | omega | skip
  all_goals
    simp (disch := omega) only [List.cons_append, List.nil_append, cons_ofNat_lt_iff]
  -- of different lengths, the first byte decides
  · exact .inl hlt
  · exact .inl (by omega)
  · exact .inl (by omega)
  · exact .inl (by omega)
  · have hdigits : v / 64 < w / 64 ∨ v / 64 = w / 64 ∧ v % 64 < w % 64 := by omega
    rcases hdigits with h | h
    · exact .inl (by omega)
    · exact .inr ⟨by omega, .inl (by omega)⟩
  · exact .inl (by omega)
  · exact .inl (by omega)
  · have hdigits : v / 4096 < w / 4096 ∨ v / 4096 = w / 4096 ∧
        (v / 64 % 64 < w / 64 % 64 ∨ v / 64 % 64 = w / 64 % 64 ∧ v % 64 < w % 64) := by omega
    rcases hdigits with h | ⟨h, h' | h'⟩
    · exact .inl (by omega)
    · exact .inr ⟨by omega, .inl (by omega)⟩
    · exact .inr ⟨by omega, .inr ⟨by omega, .inl (by omega)⟩⟩
  · exact .inl (by omega)
  · have hdigits : v / 262144 < w / 262144 ∨ v / 262144 = w / 262144 ∧
        (v / 4096 % 64 < w / 4096 % 64 ∨ v / 4096 % 64 = w / 4096 % 64 ∧
          (v / 64 % 64 < w / 64 % 64 ∨ v / 64 % 64 = w / 64 % 64 ∧ v % 64 < w % 64)) := by omega
    rcases hdigits with h | ⟨h, h' | ⟨h', h'' | h''⟩⟩
    · exact .inl (by omega)
    · exact .inr ⟨by omega, .inl (by omega)⟩
    · exact .inr ⟨by omega, .inr ⟨by omega, .inl (by omega)⟩⟩
    · exact .inr ⟨by omega, .inr ⟨by omega, .inr ⟨by omega, .inl (by omega)⟩⟩⟩

theorem flatMap_encodeChar_lt {l l' : List Char} (h : l < l') :
    l.flatMap String.utf8EncodeChar < l'.flatMap String.utf8EncodeChar := by
  induction l generalizing l' with
  | nil =>
    rcases l' with - | ⟨d, l'⟩
    · exact absurd h (lt_irrefl _)
    · rw [List.flatMap_nil, List.flatMap_cons]
      rcases hd : String.utf8EncodeChar d with - | ⟨b, bs⟩
      · exact absurd hd (String.utf8EncodeChar_ne_nil)
      · exact List.nil_lt_cons _ _
  | cons c l ih =>
    rcases l' with - | ⟨d, l'⟩
    · exact absurd h (List.not_lt_nil _)
    · rw [List.flatMap_cons, List.flatMap_cons]
      rcases List.cons_lt_cons_iff.1 h with hlt | ⟨rfl, hlt⟩
      · exact encodeChar_append_lt hlt _ _
      · exact List.append_left_lt (ih hlt)

/-- **Texts are in the order of their bytes.** -/
theorem ofString_strictMono : StrictMono ofString := by
  intro s s' h
  rw [ofString_eq_flatMap, ofString_eq_flatMap]
  exact flatMap_encodeChar_lt (String.lt_iff_toList_lt.1 h)

end Bulk
