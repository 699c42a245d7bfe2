import Mathlib.Logic.Basic
import Mathlib.Data.List.Basic

/-!
# Runs of a machine with recorded history

A `Machine` is a state, an initial value and a total transition on inputs. A run records what it
did: its history is the list of turns taken, **newest first**, each turn keeping the state it found
and the input it was given. What the turn returned or left behind is a function of those two, so
nothing else is stored.

Which inputs a run may take next is a guard `ok` on the history, the current state and the input.
Freshness of a name, a clock that does not go back and the program counter of a client are all
guards of this kind, so one notion of run serves them all.

The only induction over runs is `Run.invariant`; the inversions `Run.of_cons` and `Run.of_append`
let a statement about an earlier turn be read off a later history. A particular run is given by the
list of its inputs (`play`); where the guard is decidable, that they are admitted is computed.
-/

/-- A machine: an initial state and what each input does to a state. -/
structure Machine (σ ι : Type*) where
  /-- The initial state. -/
  init : σ
  /-- The state after an input. -/
  next : σ → ι → σ

/-- A turn of a machine: the state it found and the input it was given. -/
structure Turn (σ ι : Type*) where
  /-- The state the turn found. -/
  before : σ
  /-- The input it was given. -/
  input : ι

namespace Machine

variable {σ ι : Type*} (M : Machine σ ι)

/-- The state a turn leaves behind. -/
def after (t : Turn σ ι) : σ := M.next t.before t.input

variable (ok : List (Turn σ ι) → σ → ι → Prop)

/-- The runs whose every input passed the guard, with their history (newest turn first) and the
state they reached. -/
inductive Run : List (Turn σ ι) → σ → Prop
  | start : Run [] M.init
  | step {h : List (Turn σ ι)} {s : σ} (i : ι) :
      Run h s → ok h s i → Run (⟨s, i⟩ :: h) (M.next s i)

/-- Give a machine a list of inputs, the first one first. -/
def play : List (Turn σ ι) → σ → List ι → List (Turn σ ι) × σ
  | h, s, [] => (h, s)
  | h, s, i :: rest => play (⟨s, i⟩ :: h) (M.next s i) rest

/-- All inputs of a list pass the guard when their turn comes. -/
def Admits : List (Turn σ ι) → σ → List ι → Prop
  | _, _, [] => True
  | h, s, i :: rest => ok h s i ∧ Admits (⟨s, i⟩ :: h) (M.next s i) rest

instance [∀ h s i, Decidable (ok h s i)] : ∀ (h : List (Turn σ ι)) (s : σ) (l : List ι),
    Decidable (M.Admits ok h s l)
  | _, _, [] => inferInstanceAs (Decidable True)
  | h, s, i :: rest =>
    have : Decidable (M.Admits ok (⟨s, i⟩ :: h) (M.next s i) rest) := instDecidableAdmits _ _ rest
    inferInstanceAs (Decidable (ok h s i ∧ M.Admits ok (⟨s, i⟩ :: h) (M.next s i) rest))

namespace Run

variable {M ok} {h newer older : List (Turn σ ι)} {s : σ} {t : Turn σ ι}

/-- **The invariant rule.** What holds of the empty run and is kept by every admitted step holds of
every run. -/
theorem invariant {P : List (Turn σ ι) → σ → Prop} (hstart : P [] M.init)
    (hstep : ∀ h s i, M.Run ok h s → P h s → ok h s i → P (⟨s, i⟩ :: h) (M.next s i))
    (hrun : M.Run ok h s) : P h s := by
  induction hrun with
  | start => exact hstart
  | step i hrun hok ih => exact hstep _ _ i hrun ih hok

/-- The last turn of a run: it was admitted, and it left the state reached. -/
theorem of_cons (hrun : M.Run ok (t :: h) s) :
    M.Run ok h t.before ∧ ok h t.before t.input ∧ s = M.after t := by
  cases hrun with
  | step i hrun hok => exact ⟨hrun, hok, rfl⟩

/-- Any turn of a run: the turns before it form a run to the state it found. -/
theorem of_append : ∀ {newer : List (Turn σ ι)} {s : σ}, M.Run ok (newer ++ t :: older) s →
    M.Run ok older t.before ∧ ok older t.before t.input
  | [], _, hrun => ⟨hrun.of_cons.1, hrun.of_cons.2.1⟩
  | _ :: _, _, hrun => of_append hrun.of_cons.1

theorem of_mem (hrun : M.Run ok h s) (ht : t ∈ h) :
    ∃ older, M.Run ok older t.before ∧ ok older t.before t.input := by
  obtain ⟨newer, older, rfl⟩ := List.append_of_mem ht
  exact ⟨older, hrun.of_append⟩

/-- And so do the turns up to and including it, to the state it left. -/
theorem upto (hrun : M.Run ok (newer ++ t :: older) s) : M.Run ok (t :: older) (M.after t) :=
  .step t.input hrun.of_append.1 hrun.of_append.2

/-- **A run by its inputs.** -/
theorem play : ∀ {h : List (Turn σ ι)} {s : σ} (l : List ι), M.Run ok h s → M.Admits ok h s l →
    M.Run ok (M.play h s l).1 (M.play h s l).2
  | _, _, [], hrun, _ => hrun
  | _, _, i :: rest, hrun, hok => play rest (.step i hrun hok.1) hok.2

/-- A run under a guard is a run under any weaker one. -/
theorem mono {ok' : List (Turn σ ι) → σ → ι → Prop}
    (hok : ∀ h s i, M.Run ok' h s → ok h s i → ok' h s i) (hrun : M.Run ok h s) :
    M.Run ok' h s := by
  induction hrun with
  | start => exact .start
  | step i _ h ih => exact .step i ih (hok _ _ _ ih h)

end Run

end Machine
