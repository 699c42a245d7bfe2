import TaskQueue.Server.Model

/-!
# The registry of handlers

`Mux` routes a job to the handler of its task type. A handler is the application's: all that is said
about one is how a call of it ends, and that may be different every time.
-/

namespace TaskQueue

/-- `Mux`, with handlers from a type `H`. -/
structure Mux (H : Type) where
  handlers : Table String H

namespace Mux

variable {H : Type}

/-- `NewMux` -/
def new : Mux H := ⟨∅⟩

/-- `Handle`; a nil handler is `none`, and the error is the value it panics with. -/
def handle (m : Mux H) (taskType : String) (h : Option H) : Except String (Mux H) :=
  if taskType = "" then .error "taskq: Handle called with an empty task type"
  else
    match h with
    | none => .error ("taskq: Handle called with a nil handler for type " ++ taskType)
    | some h =>
      if (m.handlers.lookup taskType).isSome then
        .error ("taskq: duplicate handler registration for task type " ++ taskType)
      else .ok ⟨m.handlers.insert taskType h⟩

/-- The text of `ErrNoHandler` as `ProcessTask` wraps it; `quote` is the `%q` of `fmt`. -/
def noHandler (quote : String → String) (taskType : String) : String :=
  "taskq: no handler registered for task type " ++ quote taskType

/-- `ProcessTask`, where `ends` says how the handler ends if there is one. The error of a job
without a handler does not wrap `ErrSkipRetry`. -/
def processTask (m : Mux H) (quote : String → String) (ends : H → Job → Server.Outcome) (j : Job) :
    Server.Outcome :=
  match m.handlers.lookup j.type with
  | none => .failed (noHandler quote j.type) false
  | some h => ends h j

variable {m : Mux H} {quote : String → String} {ends : H → Job → Server.Outcome} {j : Job}

/-- A job without a handler fails like any other, and can be retried. -/
theorem processTask_of_none (hnone : m.handlers.lookup j.type = none) :
    m.processTask quote ends j = .failed (noHandler quote j.type) false := by
  rw [processTask, hnone]

end Mux

end TaskQueue
