import TaskQueue.Redis.Refinement

/-!
# Brokers that share a Redis

Any number of brokers, each with clients of its own, on one keyspace. Their calls interleave as they
like: a call of one broker is one step, at the server's time, on the keyspace as it then is. Beside
the keyspace the machine `shared` runs the records of every broker in lockstep, and **the two agree
at every call** (`shared_refines`): what a client is told is what the operation on the records
returns, so in particular it is never a Redis error.

For this the namespaces have to be **apart**. They are unless one of them continues the other with
one of the words that keys with a name begin with (`namespaces_apart_iff`): `app` and `app:worker`
are not apart, since the hash of a worker `delayed` of the first is under the key of the delayed set
of the second. Brokers that are apart do not notice each other: each of them gets the replies it
would get on a Redis of its own (`broker_isolated`).
-/

namespace TaskQueue.Redis

open Bulk Keyspace

/-! ### Namespaces -/

/-- No key of one namespace is a key of the other. -/
def Apart (ns ns' : String) : Prop := ∀ k k' : Key, k.text ns ≠ k'.text ns'

/-- The words of the keys that take a name. -/
def nameWords : List String := ["job", "q", "active", "unique", "worker", "lease"]

/-- The second namespace looks like a key of the first, or like the beginning of one. -/
def Within (ns ns' : String) : Prop :=
  ∃ word ∈ nameWords, ns' = ns ++ ":" ++ word ∨ ∃ rest, ns' = ns ++ ":" ++ word ++ ":" ++ rest

section Apart

variable {ns ns' : String} {k k' : Key}

theorem Apart.symm (h : Apart ns ns') : Apart ns' ns := fun k k' heq ↦ h k' k heq.symm

theorem within_iff : Within ns ns' ↔
    ∃ word ∈ nameWords, ∃ rest,
      ns'.toList = ns.toList ++ ':' :: Text.join ':' (word.toList, rest) := by
  constructor
  · rintro ⟨word, hword, rfl | ⟨rest, rfl⟩⟩
    · exact ⟨word, hword, none, by simp [Text.join]⟩
    · exact ⟨word, hword, some rest.toList, by simp [Text.join]⟩
  · rintro ⟨word, hword, rest | rest, heq⟩
    · refine ⟨word, hword, .inl (String.toList_inj.1 ?_)⟩
      simpa [Text.join] using heq
    · refine ⟨word, hword, .inr ⟨String.ofList rest, String.toList_inj.1 ?_⟩⟩
      simpa [Text.join] using heq

/-- The keys with an argument: those that take a name, and the two counters. -/
theorem parts_some {w v : List Char} (h : k.parts = (w, some v)) :
    (∃ word ∈ nameWords, w = word.toList) ∨
      w = "stat".toList ∧ (v = "processed".toList ∨ v = "failed".toList) := by
  cases k with
  | job id => exact .inl ⟨"job", by decide, (Prod.mk.inj h).1.symm⟩
  | queue q => exact .inl ⟨"q", by decide, (Prod.mk.inj h).1.symm⟩
  | active q => exact .inl ⟨"active", by decide, (Prod.mk.inj h).1.symm⟩
  | unique u => exact .inl ⟨"unique", by decide, (Prod.mk.inj h).1.symm⟩
  | worker id => exact .inl ⟨"worker", by decide, (Prod.mk.inj h).1.symm⟩
  | lease name => exact .inl ⟨"lease", by decide, (Prod.mk.inj h).1.symm⟩
  | processed =>
    exact .inr ⟨(Prod.mk.inj h).1.symm, .inl (Option.some.inj (Prod.mk.inj h).2).symm⟩
  | failed => exact .inr ⟨(Prod.mk.inj h).1.symm, .inr (Option.some.inj (Prod.mk.inj h).2).symm⟩
  | delayed | retry | dead | queues | workers | cron => cases (Prod.mk.inj h).2

/-- There is a key for each of the words, with any name. -/
theorem exists_key {word : String} (hword : word ∈ nameWords) (name : List Char) :
    ∃ k : Key, k.parts = (word.toList, some name) := by
  have hname : (String.ofList name).toList = name := String.toList_ofList
  simp only [nameWords, List.mem_cons, List.not_mem_nil, or_false] at hword
  obtain rfl | rfl | rfl | rfl | rfl | rfl := hword
  exacts [⟨.job (String.ofList name), by rw [Key.parts, hname]; rfl⟩,
    ⟨.queue (String.ofList name), by rw [Key.parts, hname]; rfl⟩,
    ⟨.active (String.ofList name), by rw [Key.parts, hname]; rfl⟩,
    ⟨.unique (String.ofList name), by rw [Key.parts, hname]; rfl⟩,
    ⟨.worker (String.ofList name), by rw [Key.parts, hname]; rfl⟩,
    ⟨.lease (String.ofList name), by rw [Key.parts, hname]; rfl⟩]

/-- The parts of a key that begin with a text and a colon, behind which another key stands: the
text begins with one of the words. The counters have no room for it. -/
theorem within_of_join {u : List Char}
    (h : Text.join ':' k.parts = u ++ ':' :: Text.join ':' k'.parts) :
    ∃ word ∈ nameWords, ∃ rest, u = Text.join ':' (word.toList, rest) := by
  have hcut : k.parts = Text.cut ':' (u ++ ':' :: Text.join ':' k'.parts) := by
    rw [← h, Text.cut_join k.colon_notMem_parts]
  rcases Text.cut_cases ':' u with ⟨hu, -⟩ | ⟨xs, ys, rfl, hxs, -⟩
  · rw [Text.cut_append hu] at hcut
    rcases parts_some hcut with ⟨word, hword, rfl⟩ | ⟨-, hv⟩
    · exact ⟨word, hword, none, rfl⟩
    · -- the rest of a counter is no key
      have hparts : k'.parts = Text.cut ':' (Text.join ':' k'.parts) :=
        (Text.cut_join k'.colon_notMem_parts).symm
      rcases hv with hv | hv
      all_goals
        rw [hv] at hparts
        cases k' <;> revert hparts <;> simp [Key.parts, Text.cut]
  · rw [List.append_assoc, List.cons_append, Text.cut_append hxs] at hcut
    rcases parts_some hcut with ⟨word, hword, rfl⟩ | ⟨-, hv⟩
    · exact ⟨word, hword, some ys, rfl⟩
    · have hcolon : ':' ∈ ys ++ ':' :: Text.join ':' k'.parts := by simp
      rcases hv with hv | hv
      all_goals
        rw [hv] at hcolon
        exact absurd hcolon (by decide)

theorem not_apart_of_within (h : Within ns ns') : ¬ Apart ns ns' := by
  obtain ⟨word, hword, rest, heq⟩ := within_iff.1 h
  intro hapart
  rcases rest with _ | rest
  · obtain ⟨k, hk⟩ := exists_key hword (Text.join ':' Key.delayed.parts)
    refine hapart k .delayed (String.toList_inj.1 ?_)
    rw [Key.toList_text, Key.toList_text, heq, hk]
    simp [Text.join]
  · obtain ⟨k, hk⟩ := exists_key hword (rest ++ ':' :: Text.join ':' Key.delayed.parts)
    refine hapart k .delayed (String.toList_inj.1 ?_)
    rw [Key.toList_text, Key.toList_text, heq, hk]
    simp [Text.join]

theorem apart_of_not_within (hne : ns ≠ ns') (hwithin : ¬ Within ns ns')
    (hwithin' : ¬ Within ns' ns) : Apart ns ns' := by
  intro k k' heq
  have hlist := congrArg String.toList heq
  rw [Key.toList_text, Key.toList_text] at hlist
  rcases List.append_eq_append_iff.1 hlist with ⟨z, hz, htail⟩ | ⟨z, hz, htail⟩
  · rcases z with - | ⟨c, z⟩
    · exact hne (String.toList_inj.1 (by simpa using hz.symm))
    · obtain ⟨rfl, hjoin⟩ := List.cons.inj htail
      obtain ⟨word, hword, rest, rfl⟩ := within_of_join hjoin
      exact hwithin (within_iff.2 ⟨word, hword, rest, hz⟩)
  · rcases z with - | ⟨c, z⟩
    · exact hne (String.toList_inj.1 (by simpa using hz))
    · obtain ⟨rfl, hjoin⟩ := List.cons.inj htail
      obtain ⟨word, hword, rest, rfl⟩ := within_of_join hjoin
      exact hwithin' (within_iff.2 ⟨word, hword, rest, hz⟩)

theorem not_within_of_notMem (hns' : ':' ∉ ns'.toList) : ¬ Within ns ns' := by
  intro hwithin
  obtain ⟨word, -, rest, heq⟩ := within_iff.1 hwithin
  rw [heq] at hns'
  simp at hns'

/-- **When two namespaces are apart**: they differ, and neither continues the other with a colon and
one of the words `job`, `q`, `active`, `unique`, `worker` and `lease`. -/
theorem namespaces_apart_iff (ns ns' : String) :
    Apart ns ns' ↔ ns ≠ ns' ∧ ¬ Within ns ns' ∧ ¬ Within ns' ns := by
  constructor
  · refine fun h ↦ ⟨?_, fun hw ↦ not_apart_of_within hw h, fun hw ↦ not_apart_of_within hw h.symm⟩
    rintro rfl
    exact h .delayed .delayed rfl
  · exact fun h ↦ apart_of_not_within h.1 h.2.1 h.2.2

end Apart

/-! ### The shared keyspace -/

/-- A broker: its namespace, and how long it keeps completed jobs. -/
structure Tenant where
  ns : String
  completedTTL : Duration

/-- A call: who is asked, the server's clock in microseconds, and what is asked. -/
structure SharedCall (ι : Type*) where
  tenant : ι
  micros : ℤ
  command : Command

namespace SharedCall

variable {ι : Type*} (c : SharedCall ι)

/-- The server's clock in milliseconds. -/
def now : ℤ := Lua.mstime c.micros

end SharedCall

section Shared

variable {ι : Type*} [DecidableEq ι] (tenants : ι → Tenant) (listing : Listing)
  (visible : ℤ → ℤ → Bool)

/-- Run a call on the keyspace. -/
def wireExec (K : Keyspace) (c : SharedCall ι) : Except Wire.Fault Response × Keyspace :=
  Wire.exec (tenants c.tenant).ns c.micros (K.live visible c.now) (tenants c.tenant).completedTTL
    listing c.command

/-- Run a call on the records of its broker. -/
def recordExec (r : Records) (c : SharedCall ι) : Response × Records :=
  (r.live visible c.now).exec c.now (tenants c.tenant).completedTTL c.command

/-- The keyspace, and the records of all brokers, in lockstep. Time passes for everybody. -/
structure Shared (ι : Type*) where
  keyspace : Keyspace
  records : ι → Records

def shared : Machine (Shared ι) (SharedCall ι) where
  init := ⟨fun _ ↦ none, fun _ ↦ .empty⟩
  next s c :=
    { keyspace := (wireExec tenants listing visible s.keyspace c).2
      records := Function.update (fun i ↦ (s.records i).live visible c.now) c.tenant
        (recordExec tenants visible (s.records c.tenant) c).2 }

/-- The runs with numbers in range. -/
def SharedInRange (_ : List (Turn (Shared ι) (SharedCall ι))) (s : Shared ι) (c : SharedCall ι) :
    Prop :=
  InRange (tenants c.tenant).completedTTL c.micros ((s.records c.tenant).live visible c.now)
    c.command

end Shared

/-! ### Time passes -/

section Live

variable {visible : ℤ → ℤ → Bool} {now : ℤ} {ns : String} {K₀ K : Keyspace} {r : Records}

theorem filter_collection (v : Value) :
    (collection v).filter (fun s ↦ s.expireAt.all (visible now)) = collection v := by
  rw [collection]
  split_ifs
  · rfl
  · rfl

theorem filter_map {α : Type} (c : Option α) (f : α → Slot) (keep : α → Bool)
    (hkeep : ∀ a, (f a).expireAt.all (visible now) = keep a) :
    (c.map f).filter (fun s ↦ s.expireAt.all (visible now)) = (c.filter keep).map f := by
  rcases c with _ | a
  · rfl
  · rw [Option.map_some, Option.filter_some, Option.filter_some, hkeep]
    split_ifs
    · rfl
    · rfl

/-- What has expired is gone on both sides. -/
theorem Encodes.live {k : Key} {o : Option Slot} (ho : Encodes k (r.get k) o) :
    Encodes k ((r.live visible now).get k) (o.filter fun s ↦ s.expireAt.all (visible now)) := by
  cases k with
  | job id =>
    obtain ⟨rfl, hfits⟩ := ho
    refine ⟨filter_map _ _ _ fun _ ↦ rfl, fun e he ↦ ?_⟩
    exact hfits e (Option.filter_eq_some_iff.1 he).1
  | unique u =>
    obtain rfl := ho
    exact filter_map _ _ _ fun _ ↦ rfl
  | lease name =>
    obtain rfl := ho
    exact filter_map _ _ _ fun _ ↦ rfl
  | worker id =>
    obtain rfl := ho
    exact filter_map _ _ _ fun _ ↦ rfl
  | processed | failed =>
    rcases ho with ⟨rfl, h0⟩ | rfl
    · exact .inl ⟨rfl, h0⟩
    · exact .inr rfl
  | cron =>
    obtain ⟨rfl, hexact⟩ := ho
    exact ⟨filter_collection _, hexact⟩
  | queue q | active q | delayed | retry | dead | queues | workers =>
    obtain rfl := ho
    exact filter_collection _

end Live

section Shared

variable {ι : Type*} [DecidableEq ι] {tenants : ι → Tenant} {listing : Listing}
  {visible : ℤ → ℤ → Bool} {h : List (Turn (Shared ι) (SharedCall ι))} {s : Shared ι}

/-- The keyspace holds the records of every broker. -/
def Agrees (tenants : ι → Tenant) (s : Shared ι) : Prop :=
  ∀ i k, Encodes k ((s.records i).get k) (s.keyspace (key (tenants i).ns k))

theorem agrees_init : Agrees tenants (shared tenants listing visible).init := by
  intro i k
  cases k with
  | job id => exact ⟨rfl, fun _ he ↦ by cases he⟩
  | cron => exact ⟨rfl, fun _ _ he ↦ by cases he⟩
  | processed | failed => exact .inl ⟨rfl, rfl⟩
  | queue q | active q | delayed | retry | dead | queues | workers | unique u | lease name
  | worker id => rfl

/-- A call changes the records of the broker that was asked. -/
theorem records_next (s : Shared ι) (c : SharedCall ι) :
    ((shared tenants listing visible).next s c).records c.tenant =
      (recordExec tenants visible (s.records c.tenant) c).2 := by
  simp only [shared, Function.update_self]

/-- For the others time passes. -/
theorem records_next_of_ne (s : Shared ι) {c : SharedCall ι} {i : ι} (hi : i ≠ c.tenant) :
    ((shared tenants listing visible).next s c).records i =
      (s.records i).live visible c.now := by
  simp only [shared, Function.update_of_ne hi]

/-- **One call.** The broker that was asked answers as its records say; the others have nothing to
do with the keys it wrote. -/
theorem Agrees.next (hapart : Pairwise fun i j ↦ Apart (tenants i).ns (tenants j).ns)
    (hs : Agrees tenants s) {c : SharedCall ι} (hin : SharedInRange tenants visible h s c) :
    (wireExec tenants listing visible s.keyspace c).1 =
        .ok (recordExec tenants visible (s.records c.tenant) c).1 ∧
      Agrees tenants ((shared tenants listing visible).next s c) := by
  have hrep : Rep (tenants c.tenant).ns (s.keyspace.live visible c.now)
      (s.keyspace.live visible c.now) ((s.records c.tenant).live visible c.now) :=
    ⟨fun k ↦ (hs c.tenant k).live, fun _ _ ↦ rfl⟩
  obtain ⟨K', hexec, hrep'⟩ := yields_exec hrep listing hin
  refine ⟨congrArg Prod.fst hexec, fun i k ↦ ?_⟩
  have hkeyspace : ((shared tenants listing visible).next s c).keyspace = K' :=
    congrArg Prod.snd hexec
  rw [hkeyspace]
  by_cases hi : i = c.tenant
  · subst hi
    rw [records_next]
    exact hrep'.holds k
  · rw [records_next_of_ne s hi,
      hrep'.frame (key (tenants i).ns k) fun k' heq ↦ hapart hi k k' (ofString_inj.1 heq)]
    exact (hs i k).live

theorem agrees_of_run (hapart : Pairwise fun i j ↦ Apart (tenants i).ns (tenants j).ns)
    (hrun : (shared tenants listing visible).Run (SharedInRange tenants visible) h s) :
    Agrees tenants s :=
  hrun.invariant (P := fun _ s ↦ Agrees tenants s) agrees_init
    fun _ _ _ _ hs hin ↦ (hs.next hapart hin).2

/-! ### Isolation -/

/-- The calls of one broker, newest first. -/
def ownCalls (i : ι) (h : List (Turn (Shared ι) (SharedCall ι))) : List (SharedCall ι) :=
  (h.map Turn.input).filter fun c ↦ c.tenant = i

/-- The records of a broker that has Redis to itself, after these calls, newest first. -/
def alone (tenants : ι → Tenant) (visible : ℤ → ℤ → Bool) : List (SharedCall ι) → Records
  | [] => .empty
  | c :: older => (recordExec tenants visible (alone tenants visible older) c).2

theorem Expires.live_live (hvisible : Expires visible) {now now' : ℤ} (hle : now ≤ now')
    (r : Records) : (r.live visible now).live visible now' = r.live visible now' := by
  have hstore : (r.store.live visible now).live visible now' = r.store.live visible now' := by
    simp only [Store.live, Store.mk.injEq, true_and, and_true]
    refine ⟨funext fun id ↦ hvisible.filter_filter hle (r.store.job id) Entry.expireAt,
      funext fun k ↦ ?_⟩
    exact hvisible.filter_filter hle (r.store.unique k) fun u ↦ some u.expireAt
  have hleases : (r.leases.live visible now).live visible now' = r.leases.live visible now' :=
    funext fun name ↦ hvisible.filter_filter hle (r.leases name) fun l ↦ some l.expireAt
  have hworker : ∀ id, ((r.fleet.worker id).filter fun w ↦ visible now w.expireAt).filter
      (fun w ↦ visible now' w.expireAt) =
      (r.fleet.worker id).filter fun w ↦ visible now' w.expireAt :=
    fun id ↦ hvisible.filter_filter hle (r.fleet.worker id) fun w ↦ some w.expireAt
  simp only [Records.live, hstore, hleases, hworker]

/-- The server's clock does not go back. -/
def ClockForward (h : List (Turn (Shared ι) (SharedCall ι))) (_ : Shared ι) (c : SharedCall ι) :
    Prop :=
  ∀ t ∈ h, t.input.now ≤ c.now

/-- To anybody who looks later, the records of a broker are those it would have alone. -/
theorem live_records_eq_alone (hvisible : Expires visible)
    (hrun : (shared tenants listing visible).Run ClockForward h s) (i : ι) {now : ℤ}
    (hnow : ∀ t ∈ h, t.input.now ≤ now) :
    (s.records i).live visible now =
      (alone tenants visible (ownCalls i h)).live visible now := by
  induction hrun generalizing now with
  | start => rfl
  | @step h s c hrun hclock ih =>
    have hlater : c.now ≤ now := hnow _ List.mem_cons_self
    by_cases hi : c.tenant = i
    · subst hi
      have hown : ownCalls c.tenant (⟨s, c⟩ :: h) = c :: ownCalls c.tenant h := by
        simp [ownCalls]
      rw [hown, records_next, alone, recordExec, recordExec, ih hclock]
    · have hown : ownCalls i (⟨s, c⟩ :: h) = ownCalls i h := by
        simp [ownCalls, hi]
      rw [hown, records_next_of_ne s (Ne.symm hi), hvisible.live_live hlater]
      exact ih fun t ht ↦ hnow t (List.mem_cons_of_mem _ ht)

/-! ### Two brokers -/

/-- Two brokers on one Redis. -/
def blueGreen (blue : Bool) : Tenant := ⟨if blue then "blue" else "green", hour⟩

/-- One of them is given a job; the ID is the same for both. -/
def blueGreenCall (blue : Bool) : SharedCall Bool where
  tenant := blue
  micros := 10 ^ 6
  command := .job (.enqueue "1" zeroTime (some (Job.plain "mail" "send" 3)))

theorem blueGreen_apart : Pairwise fun i j ↦ Apart (blueGreen i).ns (blueGreen j).ns := by
  intro i j hij
  refine apart_of_not_within ?_ (not_within_of_notMem ?_) (not_within_of_notMem ?_)
  all_goals revert hij; cases i <;> cases j <;> decide

theorem blueGreen_inRange (blue : Bool) {r : Records} (hjob : ∀ id, r.store.job id = none)
    (hprocessed : r.store.processed = 0) (hfailed : r.store.failed = 0) :
    InRange (blueGreen blue).completedTTL (10 ^ 6) r (blueGreenCall blue).command where
  clock := ⟨by decide, by decide⟩
  retention := show Int64 hour by constructor <;> decide
  sized := ⟨exact_zero, by constructor <;> decide, by constructor <;> decide⟩
  counted id e he := by
    rw [hjob] at he
    cases he
  tallied := by
    constructor
    · rw [hprocessed]
      decide
    · rw [hfailed]
      decide

theorem blueGreen_run (listing : Listing) : ∃ h s,
    (shared blueGreen listing fun now expireAt ↦ decide (now < expireAt)).Run
      (fun h s c ↦ SharedInRange blueGreen (fun now expireAt ↦ decide (now < expireAt)) h s c ∧
        ClockForward h s c) h s ∧
    h.map Turn.input = [blueGreenCall false, blueGreenCall true] := by
  refine ⟨_, _, .step (blueGreenCall false) (.step (blueGreenCall true) .start ⟨?_, ?_⟩) ⟨?_, ?_⟩,
    rfl⟩
  · exact blueGreen_inRange true (fun _ ↦ rfl) rfl rfl
  · exact fun t ht ↦ by cases ht
  · refine blueGreen_inRange false (fun id ↦ ?_) ?_ ?_
    · rw [records_next_of_ne _ (by decide)]
      rfl
    · rw [records_next_of_ne _ (by decide)]
      rfl
    · rw [records_next_of_ne _ (by decide)]
      rfl
  · intro t ht
    obtain rfl := List.mem_singleton.1 ht
    exact le_rfl

/-! ### Results -/

/-- **A shared Redis is as good as the records.** In any interleaving of the calls of any number of
brokers whose namespaces are apart, at every call the client is told what the operation on the
records of its broker returns. -/
theorem shared_refines (hapart : Pairwise fun i j ↦ Apart (tenants i).ns (tenants j).ns)
    (hrun : (shared tenants listing visible).Run (SharedInRange tenants visible) h s) :
    Agrees tenants s ∧ ∀ t ∈ h,
      (wireExec tenants listing visible t.before.keyspace t.input).1 =
        .ok (recordExec tenants visible (t.before.records t.input.tenant) t.input).1 := by
  refine ⟨agrees_of_run hapart hrun, fun t ht ↦ ?_⟩
  obtain ⟨older, hbefore, hin⟩ := hrun.of_mem ht
  exact ((agrees_of_run hapart hbefore).next hapart hin).1

theorem shared_refines_blueGreen : ∃ (listing : Listing)
    (h : List (Turn (Shared Bool) (SharedCall Bool))) (s : Shared Bool),
    h.map Turn.input = [blueGreenCall false, blueGreenCall true] ∧ Agrees blueGreen s ∧ ∀ t ∈ h,
      (wireExec blueGreen listing (fun now expireAt ↦ decide (now < expireAt)) t.before.keyspace
          t.input).1 =
        .ok (recordExec blueGreen (fun now expireAt ↦ decide (now < expireAt))
          (t.before.records t.input.tenant) t.input).1 := by
  obtain ⟨listing⟩ := Listing.nonempty
  obtain ⟨h, s, hrun, hcalls⟩ := blueGreen_run listing
  exact ⟨listing, h, s, hcalls,
    shared_refines blueGreen_apart (hrun.mono fun _ _ _ _ hok ↦ hok.1)⟩

/-- **Brokers that are apart do not notice each other.** Whatever the others did in between, every
call of a broker is answered as if it had been alone on its Redis with the calls it made before. -/
theorem broker_isolated (hapart : Pairwise fun i j ↦ Apart (tenants i).ns (tenants j).ns)
    (hvisible : Expires visible)
    (hrun : (shared tenants listing visible).Run
      (fun h s c ↦ SharedInRange tenants visible h s c ∧ ClockForward h s c) h s) :
    ∀ newer t older, h = newer ++ t :: older →
      (wireExec tenants listing visible t.before.keyspace t.input).1 =
        .ok (recordExec tenants visible
          (alone tenants visible (ownCalls t.input.tenant older)) t.input).1 := by
  rintro newer t older rfl
  obtain ⟨hbefore, hin, hclock⟩ := Machine.Run.of_append hrun
  have hrange : (shared tenants listing visible).Run (SharedInRange tenants visible) older
      t.before := hbefore.mono fun _ _ _ _ hok ↦ hok.1
  have hforward : (shared tenants listing visible).Run ClockForward older t.before :=
    hbefore.mono fun _ _ _ _ hok ↦ hok.2
  rw [((agrees_of_run hapart hrange).next hapart hin).1, recordExec, recordExec,
    live_records_eq_alone hvisible hforward t.input.tenant hclock]

theorem broker_isolated_blueGreen : ∃ (listing : Listing)
    (h : List (Turn (Shared Bool) (SharedCall Bool))) (s : Shared Bool),
    h.map Turn.input = [blueGreenCall false, blueGreenCall true] ∧
    (shared blueGreen listing fun now expireAt ↦ decide (now < expireAt)).Run
      (fun _ _ _ ↦ True) h s ∧
    ∀ newer t older, h = newer ++ t :: older →
      (wireExec blueGreen listing (fun now expireAt ↦ decide (now < expireAt)) t.before.keyspace
          t.input).1 =
        .ok (recordExec blueGreen (fun now expireAt ↦ decide (now < expireAt))
          (alone blueGreen (fun now expireAt ↦ decide (now < expireAt))
            (ownCalls t.input.tenant older)) t.input).1 := by
  obtain ⟨listing⟩ := Listing.nonempty
  obtain ⟨h, s, hrun, hcalls⟩ := blueGreen_run listing
  refine ⟨listing, h, s, hcalls, hrun.mono fun _ _ _ _ _ ↦ trivial,
    broker_isolated blueGreen_apart expires_default hrun⟩

end Shared

end TaskQueue.Redis
