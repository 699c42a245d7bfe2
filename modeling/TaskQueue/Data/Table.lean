import Mathlib.Data.Int.ConditionallyCompleteOrder
import Mathlib.Data.List.AList
import Mathlib.Data.List.Sort
import Mathlib.Data.Prod.Lex
import Mathlib.Order.ConditionallyCompleteLattice.Basic

/-!
# Finite tables and their due entries

A finite map from keys to values is an `AList`; this module adds the two things every later proof
asks of one.

* **Point lookups in `if` form** (`lookup_insert_eq`, `lookup_erase_eq`). Mathlib splits each of
  them into a hit and a miss; the `if` form is what a pointwise invariant rewrites with.
* **Due lists.** A table of times `Table κ ℤ` is read by listing the entries whose time has arrived,
  soonest first and ties broken by key (`due`). The order in which the table happens to store its
  entries cannot be seen in that list: `mem_due` and `due_sortedLT` determine it completely, which
  is what `due_eq_of_mem_iff` uses.

Nothing here depends on what the keys or the times stand for.
-/

/-- A finite map with values in a fixed type. -/
abbrev Table (κ ν : Type*) := AList fun _ : κ ↦ ν

namespace Table

variable {κ ν : Type*}

section Lookup

variable [DecidableEq κ]

theorem lookup_insert_eq (m : Table κ ν) (a k : κ) (b : ν) :
    (m.insert a b).lookup k = if k = a then some b else m.lookup k := by
  by_cases h : k = a
  · subst h
    rw [if_pos rfl, AList.lookup_insert]
  · rw [if_neg h, AList.lookup_insert_ne h]

theorem lookup_erase_eq (m : Table κ ν) (a k : κ) :
    (m.erase a).lookup k = if k = a then none else m.lookup k := by
  by_cases h : k = a
  · subst h
    rw [if_pos rfl, AList.lookup_erase]
  · rw [if_neg h, AList.lookup_erase_ne h]

/-- A lookup in a family of tables, after one of them is replaced. -/
theorem lookup_update {ι : Type*} [DecidableEq ι] (f : ι → Table κ ν) (i i' : ι) (m : Table κ ν)
    (k : κ) :
    (Function.update f i m i').lookup k = if i = i' then m.lookup k else (f i').lookup k := by
  by_cases hi : i = i'
  · subst hi
    rw [Function.update_self, if_pos rfl]
  · rw [Function.update_of_ne (Ne.symm hi), if_neg hi]

/-- Who has left a table that lost the entries of a list of its keys. -/
theorem left_iff {m m' : Table κ ν} {l : List κ} {k : κ}
    (hm : m'.lookup k = if k ∈ l then none else m.lookup k) (hl : k ∈ l → (m.lookup k).isSome) :
    (m.lookup k).isSome ∧ m'.lookup k = none ↔ k ∈ l := by
  rw [hm]
  split_ifs with hk
  · exact iff_of_true ⟨hl hk, rfl⟩ hk
  · refine iff_of_false (fun hleft ↦ ?_) hk
    rw [hleft.2] at hleft
    cases hleft.1

/-- The entries of a table whose value is selected. -/
def select (p : ν → Bool) (m : Table κ ν) : Table κ ν :=
  ⟨m.entries.filter fun e ↦ p e.2, List.NodupKeys.sublist List.filter_sublist m.nodupKeys⟩

theorem lookup_select (p : ν → Bool) (m : Table κ ν) (k : κ) :
    (m.select p).lookup k = (m.lookup k).filter p := by
  refine Option.ext fun v ↦ ?_
  rw [Option.filter_eq_some_iff]
  refine AList.mem_lookup_iff.trans ?_
  rw [select, List.mem_filter]
  exact and_congr_left fun _ ↦ AList.mem_lookup_iff.symm

end Lookup

/-! ### Due entries -/

/-- The keys of a list of (time, key) pairs. -/
def keysOf (l : List (ℤ ×ₗ κ)) : List κ := l.map fun p ↦ (ofLex p).2

@[simp] theorem keysOf_nil : keysOf ([] : List (ℤ ×ₗ κ)) = [] := rfl

@[simp] theorem keysOf_cons (p : ℤ ×ₗ κ) (l : List (ℤ ×ₗ κ)) :
    keysOf (p :: l) = (ofLex p).2 :: keysOf l := rfl

/-- Lists of pairs that are known by their keys are equal if their keys are. -/
theorem keysOf_inj {l l' : List (ℤ ×ₗ κ)}
    (hinj : ∀ p ∈ l, ∀ p' ∈ l', (ofLex p).2 = (ofLex p').2 → p = p') (h : keysOf l = keysOf l') :
    l = l' := by
  induction l generalizing l' with
  | nil => exact (List.map_eq_nil_iff.1 h.symm).symm
  | cons p l ih =>
    rcases l' with - | ⟨p', l'⟩
    · cases h
    · obtain ⟨hhead, htail⟩ := List.cons.inj h
      rw [hinj p List.mem_cons_self p' List.mem_cons_self hhead, ih (fun q hq q' hq' ↦ ?_) htail]
      exact hinj q (List.mem_cons_of_mem p hq) q' (List.mem_cons_of_mem p' hq')

section Due

variable [LinearOrder κ]

/-- The entries of `m` selected by `keep` whose time has arrived at `now`, as (time, key) pairs in
lexicographic order. -/
def due (m : Table κ ℤ) (keep : κ → Bool) (now : ℤ) : List (ℤ ×ₗ κ) :=
  ((m.entries.filter fun e ↦ decide (e.2 ≤ now) && keep e.1).map
    fun e ↦ toLex (e.2, e.1)).insertionSort (· ≤ ·)

theorem mem_due [DecidableEq κ] {m : Table κ ℤ} {keep : κ → Bool} {now : ℤ} {p : ℤ ×ₗ κ} :
    p ∈ m.due keep now ↔
      m.lookup (ofLex p).2 = some (ofLex p).1 ∧ (ofLex p).1 ≤ now ∧ keep (ofLex p).2 = true := by
  rw [due, List.mem_insertionSort, List.mem_map]
  constructor
  · rintro ⟨⟨k, t⟩, he, rfl⟩
    obtain ⟨hmem, hkeep⟩ := List.mem_filter.1 he
    rw [Bool.and_eq_true, decide_eq_true_eq] at hkeep
    exact ⟨AList.mem_lookup_iff.2 hmem, hkeep.1, hkeep.2⟩
  · rintro ⟨hlook, hle, hkeep⟩
    refine ⟨⟨(ofLex p).2, (ofLex p).1⟩, List.mem_filter.2 ⟨AList.mem_lookup_iff.1 hlook, ?_⟩, rfl⟩
    rw [Bool.and_eq_true, decide_eq_true_eq]
    exact ⟨hle, hkeep⟩

/-- A key is listed exactly when its entry is due. -/
theorem mem_keysOf_due [DecidableEq κ] {m : Table κ ℤ} {keep : κ → Bool} {now : ℤ} {k : κ} :
    k ∈ keysOf (m.due keep now) ↔ ∃ t, m.lookup k = some t ∧ t ≤ now ∧ keep k = true := by
  rw [keysOf, List.mem_map]
  constructor
  · rintro ⟨p, hp, rfl⟩
    exact ⟨(ofLex p).1, mem_due.1 hp⟩
  · rintro ⟨t, ht⟩
    exact ⟨toLex (t, k), mem_due.2 ht, rfl⟩

theorem due_pairwise_le (m : Table κ ℤ) (keep : κ → Bool) (now : ℤ) :
    (m.due keep now).Pairwise (· ≤ ·) :=
  List.pairwise_insertionSort _ _

theorem keysOf_due_nodup (m : Table κ ℤ) (keep : κ → Bool) (now : ℤ) :
    (keysOf (m.due keep now)).Nodup := by
  have hperm : (keysOf (m.due keep now)).Perm
      ((m.entries.filter fun e ↦ decide (e.2 ≤ now) && keep e.1).map Sigma.fst) := by
    have h := (List.perm_insertionSort (· ≤ ·)
      ((m.entries.filter fun e ↦ decide (e.2 ≤ now) && keep e.1).map
        fun e ↦ (toLex (e.2, e.1) : ℤ ×ₗ κ))).map fun p ↦ (ofLex p).2
    simpa [keysOf, due, List.map_map, Function.comp_def] using h
  refine hperm.nodup_iff.2 ?_
  exact List.NodupKeys.sublist List.filter_sublist m.nodupKeys

theorem due_sortedLT (m : Table κ ℤ) (keep : κ → Bool) (now : ℤ) :
    (m.due keep now).SortedLT := by
  have hnodup : (m.due keep now).Nodup := (keysOf_due_nodup m keep now).of_map _
  refine List.Pairwise.sortedLT ?_
  exact (due_pairwise_le m keep now).imp₂ (fun _ _ hle hne ↦ lt_of_le_of_ne hle hne) hnodup

/-- **A due list is determined by its members**: an increasing list with the same entries is the
due list, whatever order the table stores its entries in. -/
theorem due_eq_of_mem_iff {m : Table κ ℤ} {keep : κ → Bool} {now : ℤ} {l : List (ℤ ×ₗ κ)}
    (hl : l.SortedLT) (h : ∀ p, p ∈ m.due keep now ↔ p ∈ l) : m.due keep now = l :=
  (due_sortedLT m keep now).eq_of_mem_iff hl h

/-- Tables with the same entries list the same of them as due. -/
theorem due_congr {m m' : Table κ ℤ} (h : ∀ k, m.lookup k = m'.lookup k) (keep : κ → Bool)
    (now : ℤ) : m.due keep now = m'.due keep now :=
  due_eq_of_mem_iff (due_sortedLT m' keep now) fun p ↦ by rw [mem_due, mem_due, h]

/-- The due entries of a selection are a selection of the due entries. -/
theorem due_filter (m : Table κ ℤ) (keep keep' : κ → Bool) (now : ℤ) :
    (m.due keep now).filter (fun p ↦ keep' (ofLex p).2) =
      m.due (fun k ↦ keep k && keep' k) now := by
  refine (due_eq_of_mem_iff ?_ fun p ↦ ?_).symm
  · exact ((due_sortedLT m keep now).pairwise.sublist List.filter_sublist).sortedLT
  · rw [mem_due, List.mem_filter, mem_due, Bool.and_eq_true]
    exact ⟨fun h ↦ ⟨⟨h.1, h.2.1, h.2.2.1⟩, h.2.2.2⟩, fun h ↦ ⟨h.1.1, h.1.2.1, h.1.2.2, h.2⟩⟩

/-- What is due once the first `n` are gone. -/
theorem due_drop {m m' : Table κ ℤ} {keep : κ → Bool} {now : ℤ} {n : ℕ}
    (h : ∀ k, m'.lookup k = if k ∈ (keysOf (m.due keep now)).take n then none else m.lookup k) :
    m'.due keep now = (m.due keep now).drop n := by
  have hkeys : keysOf (m.due keep now) =
      (keysOf (m.due keep now)).take n ++ keysOf ((m.due keep now).drop n) := by
    rw [keysOf, keysOf, List.map_drop, List.take_append_drop]
  have hdisj : ∀ p ∈ (m.due keep now).drop n, (ofLex p).2 ∉ (keysOf (m.due keep now)).take n := by
    intro p hp hin
    have hnodup := keysOf_due_nodup m keep now
    rw [hkeys] at hnodup
    exact (List.nodup_append.1 hnodup).2.2 _ hin _ (List.mem_map_of_mem hp) rfl
  refine due_eq_of_mem_iff ?_ fun p ↦ ?_
  · exact ((due_sortedLT m keep now).pairwise.sublist (List.drop_sublist _ _)).sortedLT
  · rw [mem_due, h]
    constructor
    · rintro ⟨hlook, hdue⟩
      split_ifs at hlook with hin
      have hp : p ∈ (m.due keep now).take n ++ (m.due keep now).drop n := by
        rw [List.take_append_drop]
        exact mem_due.2 ⟨hlook, hdue⟩
      refine (List.mem_append.1 hp).resolve_left fun hearly ↦ hin ?_
      rw [keysOf, ← List.map_take]
      exact List.mem_map_of_mem hearly
    · intro hp
      rw [if_neg (hdisj p hp)]
      exact mem_due.1 (List.mem_of_mem_drop hp)

/-- **An entry is not among the first `n`** if `n` others are due before it. -/
theorem not_mem_take_due {m : Table κ ℤ} {keep : κ → Bool} {now : ℤ} {c : ℤ ×ₗ κ} {n : ℕ}
    {l : List (ℤ ×ₗ κ)} (hnodup : l.Nodup) (hlen : n ≤ l.length)
    (hl : ∀ p ∈ l, p ∈ m.due keep now ∧ p < c) : c ∉ (m.due keep now).take n := by
  intro hc
  have hsub : c :: l ⊆ (m.due keep now).take n := by
    refine List.cons_subset.2 ⟨hc, fun p hp ↦ ?_⟩
    obtain ⟨hdue, hlt⟩ := hl p hp
    rw [← List.take_append_drop n (m.due keep now)] at hdue
    refine (List.mem_append.1 hdue).resolve_right fun hlate ↦ ?_
    have hsorted := (due_sortedLT m keep now).pairwise
    rw [← List.take_append_drop n (m.due keep now)] at hsorted
    exact hlt.asymm ((List.pairwise_append.1 hsorted).2.2 c hc p hlate)
  have hcount := (List.subperm_of_subset
    (List.nodup_cons.2 ⟨fun hmem ↦ (hl c hmem).2.false, hnodup⟩) hsub).length_le
  rw [List.length_cons, List.length_take] at hcount
  omega

/-- Two tables whose due entries are the same up to an increasing change of times list the same
keys in the same order. -/
theorem keysOf_due_eq {m m' : Table κ ℤ} {keep keep' : κ → Bool} {now now' : ℤ} {f : ℤ → ℤ}
    {S : Set ℤ} (hf : StrictMonoOn f S) (hS : ∀ p ∈ m.due keep now, (ofLex p).1 ∈ S)
    (h : ∀ t k, toLex (t, k) ∈ m'.due keep' now' ↔
      ∃ t₀, toLex (t₀, k) ∈ m.due keep now ∧ f t₀ = t) :
    keysOf (m'.due keep' now') = keysOf (m.due keep now) := by
  have hsorted : ((m.due keep now).map fun p ↦ toLex (f (ofLex p).1, (ofLex p).2)).SortedLT := by
    refine List.Pairwise.sortedLT (List.pairwise_map.2 ?_)
    refine (due_sortedLT m keep now).pairwise.imp_of_mem fun {p p'} hp hp' hlt ↦ ?_
    rw [Prod.Lex.lt_iff] at hlt ⊢
    exact hlt.imp (hf (hS p hp) (hS p' hp')) fun hk ↦ ⟨congrArg f hk.1, hk.2⟩
  rw [due_eq_of_mem_iff hsorted fun p ↦ ?_, keysOf, List.map_map]
  · rfl
  · rw [List.mem_map]
    refine (h (ofLex p).1 (ofLex p).2).trans ⟨?_, ?_⟩
    · rintro ⟨t₀, hmem, hft⟩
      exact ⟨_, hmem, congrArg (fun t ↦ toLex (t, (ofLex p).2)) hft⟩
    · rintro ⟨p₀, hmem, rfl⟩
      exact ⟨(ofLex p₀).1, hmem, rfl⟩

end Due

/-! ### Renamed keys -/

section Rename

variable {κ' : Type*} {f : κ → κ'}

/-- An entry under another key. -/
def renameEntry (f : κ → κ') (e : (_ : κ) × ν) : (_ : κ') × ν := ⟨f e.1, e.2⟩

/-- The table with its keys renamed. -/
def rename (hf : Function.Injective f) (m : Table κ ν) : Table κ' ν where
  entries := m.entries.map (renameEntry f)
  nodupKeys := by
    have hkeys : (m.entries.map (renameEntry f)).keys = m.entries.keys.map f := by
      rw [List.keys, List.keys, List.map_map, List.map_map]
      rfl
    rw [List.NodupKeys, hkeys]
    exact m.nodupKeys.map hf

theorem mem_rename {hf : Function.Injective f} {m : Table κ ν} {k : κ} {v : ν} :
    ⟨f k, v⟩ ∈ (rename hf m).entries ↔ ⟨k, v⟩ ∈ m.entries := by
  refine List.mem_map.trans ⟨?_, fun he ↦ ⟨_, he, rfl⟩⟩
  rintro ⟨e, he, heq⟩
  obtain rfl : e = ⟨k, v⟩ := by
    obtain ⟨hk, hv⟩ := Sigma.mk.inj heq
    exact Sigma.ext (hf hk) hv
  exact he

theorem select_rename (hf : Function.Injective f) (m : Table κ ν) (p : ν → Bool) :
    (rename hf m).select p = rename hf (m.select p) :=
  AList.ext List.filter_map

variable [DecidableEq κ] [DecidableEq κ'] (hf : Function.Injective f) (m : Table κ ν) (k : κ)

theorem lookup_rename : (rename hf m).lookup (f k) = m.lookup k :=
  Option.ext fun _ ↦ AList.mem_lookup_iff.trans (mem_rename.trans AList.mem_lookup_iff.symm)

theorem erase_rename : (rename hf m).erase (f k) = rename hf (m.erase k) := by
  refine AList.ext ?_
  show (m.entries.map (renameEntry f)).kerase (f k) = (m.entries.kerase k).map (renameEntry f)
  induction m.entries with
  | nil => rfl
  | cons e l ih =>
    by_cases hk : k = e.1
    · rw [List.map_cons, List.kerase_cons_eq hk, List.kerase_cons_eq]
      exact congrArg f hk
    · rw [List.map_cons, List.kerase_cons_ne hk, List.kerase_cons_ne, List.map_cons, ih]
      exact hf.ne hk

theorem insert_rename (v : ν) : (rename hf m).insert (f k) v = rename hf (m.insert k v) :=
  AList.ext (congrArg (List.cons _) (congrArg AList.entries (erase_rename hf m k)))

end Rename

/-- Erasing a key that is not there. -/
theorem erase_of_lookup_eq_none [DecidableEq κ] {m : Table κ ν} {k : κ} (h : m.lookup k = none) :
    m.erase k = m :=
  AList.ext (List.kerase_of_notMem_keys (AList.lookup_eq_none.1 h))

/-- A renaming that keeps the order of the keys keeps the order of the due entries. -/
theorem due_rename {κ' : Type*} [LinearOrder κ] [LinearOrder κ'] {f : κ → κ'} (hf : StrictMono f)
    (m : Table κ ℤ) (now : ℤ) :
    (rename hf.injective m).due (fun _ ↦ true) now =
      (m.due (fun _ ↦ true) now).map fun p ↦ toLex ((ofLex p).1, f (ofLex p).2) := by
  refine due_eq_of_mem_iff ?_ fun p ↦ ?_
  · refine List.Pairwise.sortedLT (List.pairwise_map.2 ?_)
    refine (due_sortedLT m _ now).pairwise.imp fun {p q} hlt ↦ ?_
    rw [Prod.Lex.lt_iff] at hlt ⊢
    exact hlt.imp_right fun h ↦ ⟨h.1, hf h.2⟩
  · rw [mem_due, List.mem_map]
    constructor
    · rintro ⟨hlook, hle, -⟩
      obtain ⟨e, he, heq⟩ := List.mem_map.1 (AList.mem_lookup_iff.1 (Option.mem_def.2 hlook))
      obtain ⟨hk, ht⟩ := Sigma.mk.inj heq
      refine ⟨toLex (e.2, e.1), mem_due.2 ⟨AList.mem_lookup_iff.2 he, ?_, rfl⟩, ?_⟩
      · exact (eq_of_heq ht).trans_le hle
      · exact congrArg toLex (Prod.ext (eq_of_heq ht) hk)
    · rintro ⟨q, hq, rfl⟩
      obtain ⟨hlook, hle, -⟩ := mem_due.1 hq
      exact ⟨(lookup_rename hf.injective m _).trans hlook, hle, rfl⟩

end Table
