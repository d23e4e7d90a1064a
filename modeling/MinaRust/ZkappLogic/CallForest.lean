/-
  The account updates of a zkApp command, one after another (`zkapp_logic.rs`).

  A step takes the next update from the current frame; the rest of a frame waits on the call
  stack while the calls of one of its updates are made.  What a step does with the update is
  a parameter, which may fail.
-/
import Mathlib

namespace MinaRust.ZkappLogic

open List

inductive MayUseToken where
  | no
  | parentsOwnToken
  | inheritFromParent
  deriving DecidableEq

/-- `CallForest`: the first update with its calls, and the trees after it. -/
inductive CallForest (U : Type) where
  | empty
  | cons (accountUpdate : U) (calls rest : CallForest U)

/-- What is read of an account update, and the default token. -/
structure Tokens (U T : Type) where
  mayUseToken : U → MayUseToken
  deriveTokenId : U → T
  default : T

inductive Stop (E : Type) where
  | err (e : E)
  | isEmptyCallForest
  | popExn

variable {U T E S : Type}

namespace CallForest

def isEmpty : CallForest U → Bool
  | .empty => true
  | .cons .. => false

def size : CallForest U → ℕ
  | .empty => 0
  | .cons _ calls rest => calls.size + rest.size + 1

variable (W : Tokens U T)

/-- The caller id of an update, from its parent with the parent's own caller id. -/
def callerId (u : U) : Option (U × T) → T
  | none => W.default
  | some (parent, id) =>
    match W.mayUseToken u with
    | .no => W.default
    | .parentsOwnToken => W.deriveTokenId parent
    | .inheritFromParent => id

/-- **The updates in depth-first order**, with their caller ids. -/
def visits (parent : Option (U × T)) : CallForest U → List (U × T)
  | .empty => []
  | .cons u calls rest =>
    (u, callerId W u parent) :: (visits (some (u, callerId W u parent)) calls ++ visits parent rest)

end CallForest

/-! ## The machine -/

structure StackFrame (U T : Type) where
  caller : T
  callerCaller : T
  calls : CallForest U

/-- The local state: the frames, and what the rest of a step works on. -/
structure LocalState (U T S : Type) where
  stackFrame : StackFrame U T
  callStack : List (StackFrame U T)
  inner : S

variable (W : Tokens U T)

def stackFrameDefault : StackFrame U T := ⟨W.default, W.default, .empty⟩

def popCallStack : List (StackFrame U T) → StackFrame U T × List (StackFrame U T)
  | [] => (stackFrameDefault W, [])
  | frame :: rest => (frame, rest)

structure GetNextAccountUpdateResult (U T : Type) where
  accountUpdate : U
  callerId : T
  accountUpdateForest : CallForest U
  newCallStack : List (StackFrame U T)
  newFrame : StackFrame U T

def getNextAccountUpdate (currentForest : StackFrame U T) (callStack : List (StackFrame U T)) :
    Except (Stop E) (GetNextAccountUpdateResult U T) :=
  let (currentForest, callStack) :=
    if currentForest.calls.isEmpty then popCallStack W callStack else (currentForest, callStack)
  match currentForest.calls with
  | .empty => .error .popExn
  | .cons u forest remainder =>
    let callerId :=
      if W.mayUseToken u = .inheritFromParent then currentForest.callerCaller
      else if W.mayUseToken u = .parentsOwnToken then currentForest.caller else W.default
    let (newlyPoppedFrame, poppedCallStack) := popCallStack W callStack
    let remainderFrame := { currentForest with calls := remainder }
    let newCallStack :=
      if forest.isEmpty then if remainder.isEmpty then poppedCallStack else callStack
      else if remainder.isEmpty then callStack else remainderFrame :: callStack
    let newFrame :=
      if forest.isEmpty then if remainder.isEmpty then newlyPoppedFrame else remainderFrame
      else ⟨W.deriveTokenId u, callerId, forest⟩
    .ok ⟨u, callerId, forest, newCallStack, newFrame⟩

namespace LocalState

variable (process : S → Bool × GetNextAccountUpdateResult U T → Except E S)

def next (isStart : Bool) (l : LocalState U T S) : Except (Stop E) (LocalState U T S) := do
  let taken ← getNextAccountUpdate W l.stackFrame l.callStack
  match process l.inner (isStart, taken) with
  | .error e => .error (.err e)
  | .ok inner => return ⟨taken.newFrame, taken.newCallStack, inner⟩

def start (l : LocalState U T S) (accountUpdates : CallForest U) : Except (Stop E) (LocalState U T S) :=
  if l.stackFrame.calls.isEmpty then
    next W process true ⟨⟨W.default, W.default, accountUpdates⟩, [], l.inner⟩
  else .error .isEmptyCallForest

def step (l : LocalState U T S) : Except (Stop E) (LocalState U T S) :=
  if l.stackFrame.calls.isEmpty then .error .isEmptyCallForest else next W process false l

def stepAll : ℕ → LocalState U T S → Except (Stop E) (LocalState U T S)
  | 0, l => .ok l
  | rounds + 1, l =>
    if l.stackFrame.calls.isEmpty then .ok l
    else do stepAll rounds (← step W process l)

end LocalState

/-! ## What is left to do -/

def visitsFrom (caller callerCaller : T) : CallForest U → List (U × T)
  | .empty => []
  | .cons u calls rest =>
    let id :=
      if W.mayUseToken u = .inheritFromParent then callerCaller
      else if W.mayUseToken u = .parentsOwnToken then caller else W.default
    (u, id) :: (visitsFrom (W.deriveTokenId u) id calls ++ visitsFrom caller callerCaller rest)

variable {W}

theorem length_visitsFrom : ∀ (forest : CallForest U) (caller callerCaller : T),
    (visitsFrom W caller callerCaller forest).length = forest.size
  | .empty, _, _ => rfl
  | .cons u calls rest, _, _ => by
    rw [visitsFrom, CallForest.size, length_cons, length_append, length_visitsFrom calls, length_visitsFrom rest]

/-- **The frames carry what the recursive definition needs of a parent.** -/
theorem visits_eq : ∀ (forest : CallForest U) (parent : Option (U × T)), forest.visits W parent =
    visitsFrom W (parent.elim W.default (W.deriveTokenId ·.1)) (parent.elim W.default Prod.snd) forest
  | .empty, _ => rfl
  | .cons u calls rest, parent => by
    have id : CallForest.callerId W u parent =
        if W.mayUseToken u = .inheritFromParent then parent.elim W.default Prod.snd
        else if W.mayUseToken u = .parentsOwnToken then parent.elim W.default (W.deriveTokenId ·.1) else W.default := by
      cases parent with
      | none => simp [CallForest.callerId]
      | some p => cases use : W.mayUseToken u <;> simp [CallForest.callerId, use]
    rw [CallForest.visits, visits_eq calls, visits_eq rest, visitsFrom, id]
    rfl

def pending (W : Tokens U T) (frame : StackFrame U T) (stack : List (StackFrame U T)) : List (U × T) :=
  (frame :: stack).flatMap fun f => visitsFrom W f.caller f.callerCaller f.calls

/-- No frame on the call stack is empty, and the current one is so only at the end. -/
structure Ready (W : Tokens U T) (frame : StackFrame U T) (stack : List (StackFrame U T)) : Prop where
  busy : ∀ f ∈ stack, f.calls.isEmpty = false
  done : frame.calls.isEmpty = true → frame = stackFrameDefault W ∧ stack = []

theorem getNextAccountUpdate_eq (frame : StackFrame U T) (stack : List (StackFrame U T))
    (more : frame.calls.isEmpty = false) (busy : ∀ f ∈ stack, f.calls.isEmpty = false) :
    ∃ r, getNextAccountUpdate (E := E) W frame stack = .ok r ∧
      pending W frame stack = (r.accountUpdate, r.callerId) :: pending W r.newFrame r.newCallStack ∧
      Ready W r.newFrame r.newCallStack := by
  obtain ⟨caller, callerCaller, calls⟩ := frame
  cases calls with
  | empty => cases more
  | cons u forest remainder =>
    refine ⟨_, rfl, ?_⟩
    cases forest with
    | cons v calls rest =>
      cases remainder with
      | empty => exact ⟨by simp [pending, visitsFrom, CallForest.isEmpty], busy, nofun⟩
      | cons w calls' rest' =>
        refine ⟨by simp [pending, visitsFrom, CallForest.isEmpty], ?_, nofun⟩
        exact forall_mem_cons.2 ⟨rfl, busy⟩
    | empty =>
      cases remainder with
      | cons w calls' rest' => exact ⟨by simp [pending, visitsFrom, CallForest.isEmpty], busy, nofun⟩
      | empty =>
        cases stack with
        | nil => exact ⟨rfl, busy, fun _ => ⟨rfl, rfl⟩⟩
        | cons top stack =>
          obtain ⟨here, busy⟩ := forall_mem_cons.1 busy
          refine ⟨by simp [pending, visitsFrom, CallForest.isEmpty], busy, fun none => ?_⟩
          cases here.symm.trans none

namespace LocalState

/-- The end of a run: no frame is left, or the first error. -/
def finished (W : Tokens U T) : Except E S → Except (Stop E) (LocalState U T S)
  | .ok inner => .ok ⟨stackFrameDefault W, [], inner⟩
  | .error e => .error (.err e)

def visit (taken : Bool × GetNextAccountUpdateResult U T) : U × T := (taken.2.accountUpdate, taken.2.callerId)

theorem next_run {process : S → Bool × GetNextAccountUpdateResult U T → Except E S} {l : LocalState U T S}
    {r : GetNextAccountUpdateResult U T} {taken : List (Bool × GetNextAccountUpdateResult U T)} {rounds : ℕ}
    (get : getNextAccountUpdate (E := E) W l.stackFrame l.callStack = .ok r) (isStart : Bool)
    (run : ∀ inner, stepAll W process rounds ⟨r.newFrame, r.newCallStack, inner⟩ = finished W (taken.foldlM process inner)) :
    (next W process isStart l >>= stepAll W process rounds) =
      finished W (((isStart, r) :: taken).foldlM process l.inner) := by
  rw [next, get, foldlM_cons]
  change (match process l.inner (isStart, r) with | .error e => _ | .ok inner => _) >>= _ = _
  cases process l.inner (isStart, r) with
  | error e => rfl
  | ok inner => exact run inner

theorem stepAll_eq : ∀ (rounds : ℕ) {frame : StackFrame U T} {stack : List (StackFrame U T)}, Ready W frame stack →
    (pending W frame stack).length ≤ rounds → ∃ taken : List (Bool × GetNextAccountUpdateResult U T),
      taken.map visit = pending W frame stack ∧ (∀ t ∈ taken, t.1 = false) ∧
      ∀ (process : S → Bool × GetNextAccountUpdateResult U T → Except E S) inner,
        stepAll W process rounds ⟨frame, stack, inner⟩ = finished W (taken.foldlM process inner) := by
  intro rounds frame stack ready enough
  cases empty : frame.calls.isEmpty with
  | true =>
    obtain ⟨rfl, rfl⟩ := ready.done empty
    exact ⟨[], rfl, nofun, fun process inner => by cases rounds <;> rfl⟩
  | false =>
    obtain ⟨r, get, left, ready⟩ := getNextAccountUpdate_eq (E := E) frame stack empty ready.busy
    rw [left] at enough ⊢
    cases rounds with
    | zero => cases enough
    | succ rounds =>
      obtain ⟨taken, visits, later, run⟩ := stepAll_eq rounds ready (Nat.le_of_succ_le_succ enough)
      refine ⟨(false, r) :: taken, congrArg (_ :: ·) visits, forall_mem_cons.2 ⟨rfl, later⟩, ?_⟩
      intro process inner
      rw [stepAll, step, empty]
      exact next_run get false (run process)

/-- **The step machine is a depth-first traversal**: whatever the rest of a step does, a run
    takes the updates of the forest in depth-first order with the caller ids of the
    recursive definition, up to the first error, and ends with no frame left. -/
theorem run_depth_first {forest : CallForest U} {rounds : ℕ} (some : forest.isEmpty = false)
    (enough : forest.size ≤ rounds) :
    ∃ first later, (first :: later).map visit = forest.visits W none ∧ first.1 = true ∧ (∀ t ∈ later, t.1 = false) ∧
      ∀ (process : S → Bool × GetNextAccountUpdateResult U T → Except E S) (l : LocalState U T S),
        l.stackFrame.calls.isEmpty = true → (do stepAll W process rounds (← start W process l forest)) =
          finished W ((first :: later).foldlM process l.inner) := by
  obtain ⟨r, get, left, ready⟩ := getNextAccountUpdate_eq (E := E) (W := W)
    ⟨W.default, W.default, forest⟩ [] some (forall_mem_nil _)
  have all : pending W ⟨W.default, W.default, forest⟩ [] = forest.visits W none := by
    rw [visits_eq, pending, flatMap_cons, flatMap_nil, append_nil]
    rfl
  have length := congrArg List.length left
  rw [all, visits_eq, length_visitsFrom, length_cons] at length
  obtain ⟨taken, visits, later, run⟩ := stepAll_eq (S := S) (E := E) rounds ready (by omega)
  refine ⟨(true, r), taken, ?_, rfl, later, fun process l idle => ?_⟩
  · rw [← all, left, map_cons, visits]
    rfl
  · rw [start, if_pos idle]
    exact next_run (l := ⟨⟨W.default, W.default, forest⟩, [], l.inner⟩) get true (run process)

/-- Updates of numbered accounts; the token that an account owns has the number after its own. -/
def numbered : Tokens (ℕ × MayUseToken) ℕ := ⟨Prod.snd, (·.1 + 1), 0⟩

def note (noted : List (ℕ × ℕ)) (taken : Bool × GetNextAccountUpdateResult (ℕ × MayUseToken) ℕ) :
    Except Unit (List (ℕ × ℕ)) :=
  .ok (noted ++ [(taken.2.accountUpdate.1, taken.2.callerId)])

def nested : CallForest (ℕ × MayUseToken) :=
  .cons (10, .parentsOwnToken)
    (.cons (20, .parentsOwnToken) (.cons (30, .inheritFromParent) .empty .empty)
      (.cons (40, .inheritFromParent) .empty .empty)) (.cons (50, .no) .empty .empty)

theorem run_depth_first_nested : ∃ taken, List.map visit taken = nested.visits numbered none ∧
    (do stepAll numbered note 5 (← start numbered note ⟨stackFrameDefault numbered, [], []⟩ nested)) =
      finished numbered (taken.foldlM note []) := by
  obtain ⟨first, later, visits, -, -, run⟩ := run_depth_first (W := numbered) (show nested.isEmpty = false from rfl)
    (show nested.size ≤ 5 by decide)
  exact ⟨first :: later, visits, run note _ rfl⟩

example : (do stepAll numbered note 5 (← start numbered note ⟨stackFrameDefault numbered, [], []⟩ nested)) =
    .ok ⟨stackFrameDefault numbered, [], [(10, 0), (20, 11), (30, 11), (40, 0), (50, 0)]⟩ := rfl

/-- There is nothing to start with in an empty forest. -/
theorem start_empty : start numbered note ⟨stackFrameDefault numbered, [], []⟩ .empty = .error .popExn := rfl

end LocalState

end MinaRust.ZkappLogic
