import Mathlib.Algebra.Order.Group.Abs
import TaskQueue.Data.Table
import TaskQueue.Data.Utf8
import TaskQueue.Data.Double

/-!
# Commands on a keyspace

A server keeps values of five types under byte-string keys, and a key may have an expiry beside its
value. Clients send **programs** of commands. A command that meets a value of another type, a text
that is not the number it wants or a number out of range fails; that ends the program, and what it
did before stays done.

A program is a function of the keyspace it finds (`Prog`). The lemmas below are its rules: running a
program that begins with a command that succeeds is running the rest (`bind_ok`), and each command
has one equation for the case that it succeeds, stated for the key it is about. A key that does not
exist stands for an empty collection, and a collection that becomes empty is no longer there
(`collection`), so the equations of the collection commands need no case for it.

Scores are integers here, rounded as a double rounds them. In which order a server lists the fields
of a hash is not said (`Listing`).
-/

namespace Keyspace

open Bulk

/-- A value. -/
inductive Value
  | string (b : Bulk)
  | list (l : List Bulk)
  | hash (f : Fields)
  | set (m : Table Bulk Unit)
  | zset (z : Table Bulk ℤ)

/-- A key that exists: its value, and when it expires. -/
structure Slot where
  value : Value
  expireAt : Option ℤ

/-- Why a program failed. -/
inductive Error
  /-- The command is for another type of value. -/
  | wrongType
  | notInteger
  | overflow
  | invalidExpire
  /-- The program itself went wrong between two commands. -/
  | raised
  deriving DecidableEq

end Keyspace

/-- The keys that exist. -/
abbrev Keyspace := Bulk → Option Keyspace.Slot

namespace Keyspace

open Bulk

/-- A program of commands. -/
structure Prog (α : Type) where
  /-- What it answers on a keyspace, and the keyspace after it. -/
  run : Keyspace → Except Error α × Keyspace

instance : Monad Prog where
  pure a := ⟨fun K ↦ (.ok a, K)⟩
  bind x f := ⟨fun K ↦
    match x.run K with
    | (.ok a, K') => (f a).run K'
    | (.error e, K') => (.error e, K')⟩

/-- Fail. -/
def raise {α : Type} (e : Error) : Prog α := ⟨fun K ↦ (.error e, K)⟩

/-- Change the keyspace. -/
def modify (f : Keyspace → Keyspace) : Prog Unit := ⟨fun K ↦ (.ok (), f K)⟩

/-- Go on with a value that has to be there. -/
def need {α : Type} : Option α → Prog α
  | some a => pure a
  | none => raise .raised

/-! ### Reading and writing one key -/

namespace Value

def string? : Value → Option Bulk
  | .string b => some b
  | _ => none

def list? : Value → Option (List Bulk)
  | .list l => some l
  | _ => none

def hash? : Value → Option Fields
  | .hash f => some f
  | _ => none

def set? : Value → Option (Table Bulk Unit)
  | .set m => some m
  | _ => none

def zset? : Value → Option (Table Bulk ℤ)
  | .zset z => some z
  | _ => none

/-- A collection without elements. Fields are never taken out of a hash. -/
def isEmpty : Value → Bool
  | .list l => l.isEmpty
  | .set m => m.entries.isEmpty
  | .zset z => z.entries.isEmpty
  | .string _ | .hash _ => false

end Value

/-- The value under a key, if it is of the type asked for. -/
def read {α : Type} (type? : Value → Option α) (k : Bulk) : Prog (Option α) := ⟨fun K ↦
  match K k with
  | none => (.ok none, K)
  | some s =>
    match type? s.value with
    | some a => (.ok (some a), K)
    | none => (.error .wrongType, K)⟩

/-- A collection that nobody gave an expiry, as it stands under its key. -/
def collection (v : Value) : Option Slot := if v.isEmpty then none else some ⟨v, none⟩

/-- Put a value under a key, which keeps its expiry. -/
def write (k : Bulk) (v : Value) : Prog Unit :=
  modify fun K ↦ Function.update K k
    (if v.isEmpty then none else some ⟨v, (K k).bind Slot.expireAt⟩)

/-! ### Numbers in arguments -/

/-- The integer a text is; nothing else is accepted, and it has to fit in 64 bits. -/
def integer? (b : Bulk) : Option ℤ := if decimal (int64 b) = b then some (int64 b) else none

/-- An argument that has to be an integer. -/
def integer (b : Bulk) : Prog ℤ :=
  match integer? b with
  | some n => pure n
  | none => raise .notInteger

/-- The integer plus another one, in 64 bits. -/
def add (n m : ℤ) : Prog ℤ :=
  if -2 ^ 63 ≤ n + m ∧ n + m < 2 ^ 63 then pure (n + m) else raise .overflow

/-- The double that an argument is stored as. -/
def score (b : Bulk) : Prog ℤ := do return Double.ofInt (← integer b)

/-! ### Commands -/

/-- `EXISTS` -/
def existsKey (k : Bulk) : Prog Bool := ⟨fun K ↦ (.ok (K k).isSome, K)⟩

/-- `DEL` -/
def del (k : Bulk) : Prog Unit := modify fun K ↦ Function.update K k none

/-- `PEXPIRE`, at the time `now`. -/
def pexpire (now : ℤ) (k ttl : Bulk) : Prog Unit := do
  let ms ← integer ttl
  if ms ≤ 0 then del k
  else modify fun K ↦
    Function.update K k ((K k).map fun s ↦ { s with expireAt := some (now + ms) })

/-- `GET` -/
def get (k : Bulk) : Prog (Option Bulk) := read Value.string? k

/-- `SET key value PX ttl`, at the time `now`. -/
def setPX (now : ℤ) (k v ttl : Bulk) : Prog Unit := do
  let ms ← integer ttl
  if ms ≤ 0 then raise .invalidExpire
  else modify fun K ↦ Function.update K k (some ⟨.string v, some (now + ms)⟩)

/-- `SET key value NX PX ttl`: whether the key was set. -/
def setNXPX (now : ℤ) (k v ttl : Bulk) : Prog Bool := do
  let ms ← integer ttl
  if ms ≤ 0 then raise .invalidExpire
  else if ← existsKey k then return false
  else
    setPX now k v ttl
    return true

/-- `INCR` -/
def incr (k : Bulk) : Prog ℤ := do
  let old ← integer ((← read Value.string? k).getD (decimal 0))
  let new ← add old 1
  write k (.string (decimal new))
  return new

/-- `HGET` -/
def hget (k : Bulk) (field : String) : Prog (Option Bulk) := do
  let f ← read Value.hash? k
  return f.bind fun f ↦ f (ofString field)

/-- `HSET` -/
def hset (k : Bulk) (l : List (String × Bulk)) : Prog Unit := do
  let f ← read Value.hash? k
  write k (.hash ((f.getD .empty).set l))

/-- `HINCRBY` -/
def hincrby (k : Bulk) (field : String) (n : ℤ) : Prog Unit := do
  let f := (← read Value.hash? k).getD .empty
  let old ← integer ((f (ofString field)).getD (decimal 0))
  let new ← add old n
  write k (.hash (f.set [(field, decimal new)]))

/-- The order in which a server lists the fields of a hash. -/
structure Listing where
  list : Fields → List Bulk
  lists : ∀ f : Fields, (∃ flat, f.Lists flat) → f.Lists (list f)

theorem Listing.nonempty : Nonempty Listing := by
  classical
  refine ⟨fun f ↦ if hf : ∃ flat, f.Lists flat then hf.choose else [], fun f hf ↦ ?_⟩
  rw [dif_pos hf]
  exact hf.choose_spec

/-- `HGETALL` -/
def hgetall (listing : Listing) (k : Bulk) : Prog (List Bulk) := do
  let f ← read Value.hash? k
  return f.elim [] listing.list

/-- `RPUSH` -/
def rpush (k v : Bulk) : Prog Unit := do
  let l ← read Value.list? k
  write k (.list (l.getD [] ++ [v]))

/-- `LPUSH` -/
def lpush (k v : Bulk) : Prog Unit := do
  let l ← read Value.list? k
  write k (.list (v :: l.getD []))

/-- `LPOP` -/
def lpop (k : Bulk) : Prog (Option Bulk) := do
  let l := (← read Value.list? k).getD []
  if l.isEmpty then return none
  else
    write k (.list l.tail)
    return l.head?

/-- `SADD` -/
def sadd (k member : Bulk) : Prog Unit := do
  let m ← read Value.set? k
  write k (.set ((m.getD ∅).insert member ()))

/-- `ZADD` -/
def zadd (k sc member : Bulk) : Prog Unit := do
  let z ← read Value.zset? k
  write k (.zset ((z.getD ∅).insert member (← score sc)))

/-- `ZADD NX`: whether the member is new. -/
def zaddNX (k sc member : Bulk) : Prog Bool := do
  let z ← read Value.zset? k
  if ((z.getD ∅).lookup member).isSome then return false
  else
    zadd k sc member
    return true

/-- `ZREM`: whether the member was there. -/
def zrem (k member : Bulk) : Prog Bool := do
  let z := (← read Value.zset? k).getD ∅
  if (z.lookup member).isSome then
    write k (.zset (z.erase member))
    return true
  else return false

/-- `ZSCORE` -/
def zscore (k member : Bulk) : Prog (Option Bulk) := do
  let z ← read Value.zset? k
  return ((z.getD ∅).lookup member).map decimal

/-- `ZRANGEBYSCORE key -inf max WITHSCORES LIMIT 0 count`; a negative count is no limit. -/
def zrangeWithScores (k max count : Bulk) : Prog (List (ℤ ×ₗ Bulk)) := do
  let z ← read Value.zset? k
  let all := (z.getD ∅).due (fun _ ↦ true) (← score max)
  let n ← integer count
  return if n < 0 then all else all.take n.toNat

/-- `ZRANGEBYSCORE key -inf max LIMIT 0 count` -/
def zrange (k max count : Bulk) : Prog (List Bulk) := do
  return Table.keysOf (← zrangeWithScores k max count)

/-- `ZREMRANGEBYSCORE key -inf max` -/
def zremrange (k max : Bulk) : Prog Unit := do
  let z ← read Value.zset? k
  let m ← score max
  write k (.zset (Table.select (fun sc ↦ decide (m < sc)) (z.getD ∅)))

/-- `TIME`, in microseconds: the seconds, and the microseconds beyond them. -/
def time (micros : ℤ) : Bulk × Bulk := (decimal (micros / 10 ^ 6), decimal (micros % 10 ^ 6))

/-- What a program finds at the time `now`: keys that have expired are gone. -/
def live (visible : ℤ → ℤ → Bool) (now : ℤ) (K : Keyspace) : Keyspace := fun k ↦
  (K k).filter fun s ↦ s.expireAt.all (visible now)

/-! ### Rules -/

variable {α β : Type} {K K' : Keyspace} {k : Bulk}

theorem pure_eq (a : α) : (pure a : Prog α).run K = (.ok a, K) := rfl

/-- **Sequencing.** -/
theorem bind_ok {x : Prog α} {f : α → Prog β} {a : α} (hx : x.run K = (.ok a, K')) :
    (x >>= f).run K = (f a).run K' := by
  simp only [bind, hx]

/-- A program ends where it fails. -/
theorem bind_error {x : Prog α} {f : α → Prog β} {e : Error} (hx : x.run K = (.error e, K')) :
    (x >>= f).run K = (.error e, K') := by
  simp only [bind, hx]

theorem need_some (a : α) : (need (some a)).run K = (.ok a, K) := rfl

theorem modify_eq (f : Keyspace → Keyspace) : (modify f).run K = (.ok (), f K) := rfl

theorem read_of_none {type? : Value → Option α} (hk : K k = none) :
    (read type? k).run K = (.ok none, K) := by
  simp only [read, hk]

theorem read_of_some {type? : Value → Option α} {s : Slot} {a : α} (hk : K k = some s)
    (htype : type? s.value = some a) : (read type? k).run K = (.ok (some a), K) := by
  simp only [read, hk, htype]

theorem write_eq {v : Value} {e : Option ℤ} (hv : v.isEmpty = false)
    (he : (K k).bind Slot.expireAt = e) :
    (write k v).run K = (.ok (), Function.update K k (some ⟨v, e⟩)) := by
  rw [write, modify_eq, hv, he]
  rfl

section Numbers

variable {n m : ℤ}

theorem integer_decimal (hlow : -2 ^ 63 ≤ n) (hhigh : n < 2 ^ 63) :
    (integer (decimal n)).run K = (.ok n, K) := by
  rw [integer, integer?, int64_decimal hlow hhigh, if_pos rfl]
  rfl

theorem add_eq (hlow : -2 ^ 63 ≤ n + m) (hhigh : n + m < 2 ^ 63) :
    (add n m).run K = (.ok (n + m), K) := by
  rw [add, if_pos ⟨hlow, hhigh⟩]
  rfl

/-- A number that a double holds is stored as it is. -/
theorem score_decimal (hexact : |n| ≤ 2 ^ 53) : (score (decimal n)).run K = (.ok n, K) := by
  have hrange := abs_le.1 hexact
  rw [score, bind_ok (integer_decimal (by omega) (by omega)), Double.ofInt_of_abs_le hexact]
  rfl

end Numbers

theorem existsKey_eq : (existsKey k).run K = (.ok (K k).isSome, K) := rfl

theorem del_eq : (del k).run K = (.ok (), Function.update K k none) := rfl

/-! #### Strings -/

section Strings

variable {now ttl n : ℤ} {b v : Bulk} {e : Option ℤ} {s : Slot}

theorem get_of_none (hk : K k = none) : (get k).run K = (.ok none, K) :=
  read_of_none hk

theorem get_of_some (hk : K k = some ⟨.string b, e⟩) : (get k).run K = (.ok (some b), K) :=
  read_of_some hk rfl

theorem setPX_eq (hpos : 0 < ttl) (hfits : ttl < 2 ^ 63) :
    (setPX now k v (decimal ttl)).run K =
      (.ok (), Function.update K k (some ⟨.string v, some (now + ttl)⟩)) := by
  rw [setPX, bind_ok (integer_decimal (by omega) hfits), if_neg (by omega), modify_eq]

/-- Without a time to live there is no expiry to set. -/
theorem setPX_of_nonpos (hlow : -2 ^ 63 ≤ ttl) (hneg : ttl ≤ 0) :
    (setPX now k v (decimal ttl)).run K = (.error .invalidExpire, K) := by
  rw [setPX, bind_ok (integer_decimal hlow (by omega)), if_pos hneg]
  rfl

theorem setNXPX_of_none (hpos : 0 < ttl) (hfits : ttl < 2 ^ 63) (hk : K k = none) :
    (setNXPX now k v (decimal ttl)).run K =
      (.ok true, Function.update K k (some ⟨.string v, some (now + ttl)⟩)) := by
  rw [setNXPX, bind_ok (integer_decimal (by omega) hfits), if_neg (by omega),
    bind_ok existsKey_eq, hk]
  exact bind_ok (setPX_eq hpos hfits)

theorem setNXPX_of_some (hpos : 0 < ttl) (hfits : ttl < 2 ^ 63) (hk : K k = some s) :
    (setNXPX now k v (decimal ttl)).run K = (.ok false, K) := by
  rw [setNXPX, bind_ok (integer_decimal (by omega) hfits), if_neg (by omega),
    bind_ok existsKey_eq, hk]
  rfl

/-- A counter as it stands under its key: one that was never increased is not there. -/
def IsCounter (o : Option Slot) (n : ℤ) : Prop :=
  o = none ∧ n = 0 ∨ o = some ⟨.string (decimal n), none⟩

theorem incr_eq (hk : IsCounter (K k) n) (hlow : -2 ^ 63 ≤ n) (hhigh : n + 1 < 2 ^ 63) :
    (incr k).run K =
      (.ok (n + 1), Function.update K k (some ⟨.string (decimal (n + 1)), none⟩)) := by
  have hread : ∃ o, (read Value.string? k).run K = (.ok o, K) ∧ o.getD (decimal 0) = decimal n ∧
      (K k).bind Slot.expireAt = none := by
    rcases hk with ⟨hk, rfl⟩ | hk
    · exact ⟨none, get_of_none hk, rfl, by rw [hk]; rfl⟩
    · exact ⟨some (decimal n), get_of_some hk, rfl, by rw [hk]; rfl⟩
  obtain ⟨o, ho, hn, hexp⟩ := hread
  rw [incr, bind_ok ho, hn, bind_ok (integer_decimal hlow (by omega)),
    bind_ok (add_eq (by omega) hhigh)]
  exact bind_ok (write_eq rfl hexp)

end Strings

/-! #### Hashes -/

section Hashes

variable {f : Fields} {e : Option ℤ} {field : String} {l : List (String × Bulk)} {n m : ℤ}
  {now ttl : ℤ}

theorem read_hash (hk : K k = some ⟨.hash f, e⟩) :
    (read Value.hash? k).run K = (.ok (some f), K) :=
  read_of_some hk rfl

theorem hget_eq (hk : K k = some ⟨.hash f, e⟩) :
    (hget k field).run K = (.ok (f (ofString field)), K) := by
  rw [hget, bind_ok (read_hash hk)]
  rfl

theorem hset_eq (hk : K k = some ⟨.hash f, e⟩) :
    (hset k l).run K = (.ok (), Function.update K k (some ⟨.hash (f.set l), e⟩)) := by
  rw [hset, bind_ok (read_hash hk)]
  exact write_eq rfl (by rw [hk]; rfl)

theorem hset_of_none (hk : K k = none) :
    (hset k l).run K = (.ok (), Function.update K k (some ⟨.hash (Fields.empty.set l), none⟩)) := by
  rw [hset, bind_ok (read_of_none hk)]
  exact write_eq rfl (by rw [hk]; rfl)

theorem hincrby_eq (hk : K k = some ⟨.hash f, e⟩) (hf : f (ofString field) = some (decimal n))
    (hlow : -2 ^ 63 ≤ n) (hn : n < 2 ^ 63) (hlow' : -2 ^ 63 ≤ n + m) (hhigh : n + m < 2 ^ 63) :
    (hincrby k field m).run K =
      (.ok (), Function.update K k (some ⟨.hash (f.set [(field, decimal (n + m))]), e⟩)) := by
  rw [hincrby, bind_ok (read_hash hk)]
  simp only [Option.getD_some, hf]
  rw [bind_ok (integer_decimal hlow hn), bind_ok (add_eq hlow' hhigh)]
  exact write_eq rfl (by rw [hk]; rfl)

theorem hgetall_eq (listing : Listing) (hk : K k = some ⟨.hash f, e⟩) :
    (hgetall listing k).run K = (.ok (listing.list f), K) := by
  rw [hgetall, bind_ok (read_hash hk)]
  rfl

theorem pexpire_eq (hpos : 0 < ttl) (hfits : ttl < 2 ^ 63) {s : Slot} (hk : K k = some s) :
    (pexpire now k (decimal ttl)).run K =
      (.ok (), Function.update K k (some { s with expireAt := some (now + ttl) })) := by
  rw [pexpire, bind_ok (integer_decimal (by omega) hfits), if_neg (by omega),
    modify_eq, hk, Option.map_some]

theorem pexpire_of_nonpos (hlow : -2 ^ 63 ≤ ttl) (hneg : ttl ≤ 0) :
    (pexpire now k (decimal ttl)).run K = (.ok (), Function.update K k none) := by
  rw [pexpire, bind_ok (integer_decimal hlow (by omega)), if_pos hneg]
  rfl

end Hashes

/-! #### Collections -/

theorem write_collection {v v' : Value} (hk : K k = collection v) :
    (write k v').run K = (.ok (), Function.update K k (collection v')) := by
  have hexp : (K k).bind Slot.expireAt = none := by
    rw [hk, collection]
    split_ifs <;> rfl
  rw [write, modify_eq, hexp]
  rfl

/-- A collection is read as it is, also if it has no elements. -/
theorem read_collection {v : Value} {type? : Value → Option α} {a empty : α}
    (hk : K k = collection v) (htype : type? v = some a) (hempty : v.isEmpty = true → a = empty) :
    ∃ o, (read type? k).run K = (.ok o, K) ∧ o.getD empty = a := by
  rw [collection] at hk
  split_ifs at hk with he
  · exact ⟨none, read_of_none hk, (hempty he).symm⟩
  · exact ⟨some a, read_of_some hk htype, rfl⟩

section Lists

variable {l : List Bulk} {v : Bulk}

theorem read_list (hk : K k = collection (.list l)) :
    ∃ o, (read Value.list? k).run K = (.ok o, K) ∧ o.getD [] = l :=
  read_collection hk rfl fun h ↦ List.isEmpty_iff.1 h

theorem rpush_eq (hk : K k = collection (.list l)) :
    (rpush k v).run K = (.ok (), Function.update K k (collection (.list (l ++ [v])))) := by
  obtain ⟨o, ho, hl⟩ := read_list hk
  rw [rpush, bind_ok ho, hl]
  exact write_collection hk

theorem lpush_eq (hk : K k = collection (.list l)) :
    (lpush k v).run K = (.ok (), Function.update K k (collection (.list (v :: l)))) := by
  obtain ⟨o, ho, hl⟩ := read_list hk
  rw [lpush, bind_ok ho, hl]
  exact write_collection hk

theorem lpop_nil (hk : K k = collection (.list [])) : (lpop k).run K = (.ok none, K) := by
  obtain ⟨o, ho, hl⟩ := read_list hk
  rw [lpop, bind_ok ho, hl]
  rfl

theorem lpop_cons (hk : K k = collection (.list (v :: l))) :
    (lpop k).run K = (.ok (some v), Function.update K k (collection (.list l))) := by
  obtain ⟨o, ho, hl⟩ := read_list hk
  rw [lpop, bind_ok ho, hl]
  exact bind_ok (write_collection hk)

end Lists

theorem sadd_eq {m : Table Bulk Unit} {v : Bulk} (hk : K k = collection (.set m)) :
    (sadd k v).run K = (.ok (), Function.update K k (collection (.set (m.insert v ())))) := by
  obtain ⟨o, ho, hm⟩ : ∃ o, (read Value.set? k).run K = (.ok o, K) ∧ o.getD ∅ = m :=
    read_collection hk rfl fun h ↦ AList.ext (List.isEmpty_iff.1 h)
  rw [sadd, bind_ok ho, hm]
  exact write_collection hk

section SortedSets

variable {z : Table Bulk ℤ} {v : Bulk} {n m : ℤ}

theorem read_zset (hk : K k = collection (.zset z)) :
    ∃ o, (read Value.zset? k).run K = (.ok o, K) ∧ o.getD ∅ = z :=
  read_collection hk rfl fun h ↦ AList.ext (List.isEmpty_iff.1 h)

theorem zadd_eq (hk : K k = collection (.zset z)) (hexact : |n| ≤ 2 ^ 53) :
    (zadd k (decimal n) v).run K =
      (.ok (), Function.update K k (collection (.zset (z.insert v n)))) := by
  obtain ⟨o, ho, hz⟩ := read_zset hk
  rw [zadd, bind_ok ho, hz, bind_ok (score_decimal hexact)]
  exact write_collection hk

theorem zaddNX_of_some (hk : K k = collection (.zset z)) (hv : z.lookup v = some m) :
    (zaddNX k (decimal n) v).run K = (.ok false, K) := by
  obtain ⟨o, ho, hz⟩ := read_zset hk
  rw [zaddNX, bind_ok ho, hz, hv]
  rfl

theorem zaddNX_of_none (hk : K k = collection (.zset z)) (hexact : |n| ≤ 2 ^ 53)
    (hv : z.lookup v = none) :
    (zaddNX k (decimal n) v).run K =
      (.ok true, Function.update K k (collection (.zset (z.insert v n)))) := by
  obtain ⟨o, ho, hz⟩ := read_zset hk
  rw [zaddNX, bind_ok ho, hz, hv]
  exact bind_ok (zadd_eq hk hexact)

theorem zrem_of_some (hk : K k = collection (.zset z)) (hv : (z.lookup v).isSome) :
    (zrem k v).run K = (.ok true, Function.update K k (collection (.zset (z.erase v)))) := by
  obtain ⟨o, ho, hz⟩ := read_zset hk
  rw [zrem, bind_ok ho, hz, if_pos hv]
  exact bind_ok (write_collection hk)

theorem zrem_of_none (hk : K k = collection (.zset z)) (hv : z.lookup v = none) :
    (zrem k v).run K = (.ok false, K) := by
  obtain ⟨o, ho, hz⟩ := read_zset hk
  rw [zrem, bind_ok ho, hz, if_neg (by rw [hv]; decide)]
  rfl

theorem zscore_eq (hk : K k = collection (.zset z)) :
    (zscore k v).run K = (.ok ((z.lookup v).map decimal), K) := by
  obtain ⟨o, ho, hz⟩ := read_zset hk
  rw [zscore, bind_ok ho, hz]
  rfl

theorem zrangeWithScores_eq (hk : K k = collection (.zset z)) (hexact : |m| ≤ 2 ^ 53)
    (hn : 0 ≤ n) (hfits : n < 2 ^ 63) :
    (zrangeWithScores k (decimal m) (decimal n)).run K =
      (.ok ((z.due (fun _ ↦ true) m).take n.toNat), K) := by
  obtain ⟨o, ho, hz⟩ := read_zset hk
  rw [zrangeWithScores, bind_ok ho, hz, bind_ok (score_decimal hexact),
    bind_ok (integer_decimal (by omega) hfits), if_neg (by omega)]
  rfl

theorem zrange_eq (hk : K k = collection (.zset z)) (hexact : |m| ≤ 2 ^ 53)
    (hn : 0 ≤ n) (hfits : n < 2 ^ 63) :
    (zrange k (decimal m) (decimal n)).run K =
      (.ok ((Table.keysOf (z.due (fun _ ↦ true) m)).take n.toNat), K) := by
  rw [zrange, bind_ok (zrangeWithScores_eq hk hexact hn hfits), Table.keysOf, Table.keysOf,
    List.map_take]
  rfl

theorem zremrange_eq (hk : K k = collection (.zset z)) (hexact : |m| ≤ 2 ^ 53) :
    (zremrange k (decimal m)).run K =
      (.ok (), Function.update K k
        (collection (.zset (Table.select (fun sc ↦ decide (m < sc)) z)))) := by
  obtain ⟨o, ho, hz⟩ := read_zset hk
  rw [zremrange, bind_ok ho, hz, bind_ok (score_decimal hexact)]
  exact write_collection hk

end SortedSets

/-! ### What a keyspace stands for -/

section Does

variable {σ : Type*} {R : Keyspace → σ → Prop} {s s₁ s₂ : σ} {x y : Prog α} {f : α → Prog β}
  {a : α} {b : β}

/-- On every keyspace that stands for `s` the program answers `a`, and it leaves one that stands for
`s₁`. -/
def Does (R : Keyspace → σ → Prop) (s : σ) (x : Prog α) (a : α) (s₁ : σ) : Prop :=
  ∀ K, R K s → ∃ K', x.run K = (.ok a, K') ∧ R K' s₁

namespace Does

theorem pure (a : α) : Does R s (Pure.pure a) a s := fun K hK ↦ ⟨K, pure_eq a, hK⟩

/-- **Sequencing.** -/
theorem bind (hx : Does R s x a s₁) (hf : Does R s₁ (f a) b s₂) : Does R s (x >>= f) b s₂ := by
  intro K hK
  obtain ⟨K₁, hrun, hK₁⟩ := hx K hK
  obtain ⟨K₂, hrun', hK₂⟩ := hf K₁ hK₁
  exact ⟨K₂, (bind_ok hrun).trans hrun', hK₂⟩

/-- Two commands that belong together. -/
theorem bind_pair {γ : Type} {g : β → Prog γ} {c : γ} (hxf : Does R s (x >>= f) b s₁)
    (hg : Does R s₁ (g b) c s₂) : Does R s (x >>= fun a ↦ f a >>= g) c s₂ := by
  intro K hK
  obtain ⟨K₂, hrun, hK₂⟩ := hxf.bind hg K hK
  refine ⟨K₂, Eq.trans ?_ hrun, hK₂⟩
  rcases hx : x.run K with ⟨_ | a, K₁⟩
  · simp only [Bind.bind, hx]
  · simp only [Bind.bind, hx]

/-- A program that only reads. -/
theorem reads (h : ∀ K, R K s → x.run K = (.ok a, K)) : Does R s x a s :=
  fun K hK ↦ ⟨K, h K hK, hK⟩

/-- What a keyspace that stands for `s` tells about `s`. -/
theorem given (h : ∀ K, R K s → Does R s x a s₁) : Does R s x a s₁ := fun K hK ↦ h K hK K hK

theorem need (a : α) : Does R s (need (some a)) a s := reads fun _ _ ↦ need_some a

theorem ofTrue (h : Does R s x a s₁) : Does R s (if true then x else y) a s₁ := h

theorem ofFalse (h : Does R s y a s₁) : Does R s (if false then x else y) a s₁ := h

theorem ofPos {p : Prop} [Decidable p] (hp : p) (h : Does R s x a s₁) :
    Does R s (if p then x else y) a s₁ := by
  rwa [if_pos hp]

theorem ofNeg {p : Prop} [Decidable p] (hp : ¬ p) (h : Does R s y a s₁) :
    Does R s (if p then x else y) a s₁ := by
  rwa [if_neg hp]

end Does

end Does

end Keyspace
