/-
  The trees of the parallel scan (`parallel_scan.rs`).

  A tree holds one base job per leaf and one merge job per inner node, laid out breadth
  first.  Each node carries a weight, the number of new jobs that can still be sent below
  it; jobs are split along these weights.  Levels count from the root (`0`) to the leaves.
  Every subtraction is checked, and a run that would panic stops with a `Panic`.
-/
import MinaRust.Lib.Checked
import MinaRust.Lib.PerfectTree

namespace MinaRust.ParallelScan

inductive Panic where
  /-- an unsigned subtraction below zero -/
  | underflow
  /-- `jobs_fifo.pop_front().unwrap()` -/
  | emptyFifo
  /-- `assert_eq!(jobs_fifo.capacity(), self.values.len())` -/
  | fifoCapacity
  /-- `childs_of(..).unwrap()` and `datas[0].take().unwrap()` -/
  | missingData
  /-- "Got {} jobs when updating level {} and when one of the merge nodes .." -/
  | mergeNode
  /-- "Got {} jobs when updating level {} and when one of the base nodes .." -/
  | baseNode
  /-- "More work than required" -/
  | moreWorkThanRequired
  /-- `assert!(old.is_none())` on the statistics of an update -/
  | duplicateStats
  /-- "Data count ({}) exceeded available space ({})" -/
  | exceededAvailableSpace
  /-- a kind of base job that the log does not know -/
  | unknownBaseKind
  /-- "Data count ({}) exceeded maximum ({})" -/
  | exceededMaximum
  /-- "Insufficient jobs (Data count {}): Required- {} got- {}" -/
  | insufficientJobs
  /-- "Tree list length ({}) exceeded maximum ({})" -/
  | tooManyTrees
  deriving DecidableEq, Repr

/-- Each node is a job; a completed job is marked `done` and creates a new
    `todo` job one level up. -/
inductive JobStatus where
  | todo
  | done
  deriving DecidableEq, Repr

/-- The number of new jobs, base and merge, that can be sent to a node. -/
structure Weight where
  base : ℕ
  merge : ℕ
  deriving DecidableEq, Repr

def Weight.zero : Weight := ⟨0, 0⟩

inductive WeightLens where
  | base
  | merge
  deriving DecidableEq, Repr

def WeightLens.get : WeightLens → Weight → ℕ
  | .base, w => w.base
  | .merge, w => w.merge

def WeightLens.set : WeightLens → Weight → ℕ → Weight
  | .base, w, n => ⟨n, w.merge⟩
  | .merge, w, n => ⟨w.base, n⟩

/-- The base job of a leaf, with the sequence number of the update that added
    it. -/
structure Base.Record (B : Type) where
  job : B
  seqNo : ℕ
  state : JobStatus
  deriving DecidableEq, Repr

inductive Base.Job (B : Type) where
  | empty
  | full (r : Base.Record B)
  deriving DecidableEq, Repr

structure Base (B : Type) where
  weight : Weight
  job : Base.Job B
  deriving DecidableEq, Repr

structure Merge.Record (M : Type) where
  left : M
  right : M
  seqNo : ℕ
  state : JobStatus
  deriving DecidableEq, Repr

/-- A merge job waits for both results (`empty`), for the right one (`part`), or
    is ready (`full`). -/
inductive Merge.Job (M : Type) where
  | empty
  | part (a : M)
  | full (r : Merge.Record M)
  deriving DecidableEq, Repr

structure Merge (M : Type) where
  weight : Weight × Weight
  job : Merge.Job M
  deriving DecidableEq, Repr

inductive AvailableJob (B M : Type) where
  | base (b : B)
  | merge (left right : M)
  deriving DecidableEq, Repr

/-- The jobs that are added to a tree: new data or results of completed jobs. -/
inductive Job (B M : Type) where
  | base (b : B)
  | merge (m : M)
  deriving DecidableEq, Repr

inductive Value (β μ : Type) where
  | leaf (b : β)
  | node (m : μ)
  deriving DecidableEq, Repr

def Value.elim {β μ A : Type} (f : β → A) (g : μ → A) : Value β μ → A
  | .leaf b => f b
  | .node m => g m

/-- A tree with `max_base_jobs` leaves, its nodes laid out breadth first. -/
structure Tree (β μ : Type) where
  values : List (Value β μ)
  deriving DecidableEq, Repr

/-- A queue and its capacity, which grows when a push finds it full. -/
structure VecDeque (α : Type) where
  items : List α
  capacity : ℕ

namespace VecDeque
variable {α : Type}

def withCapacity (n : ℕ) : VecDeque α := ⟨[], n⟩

def pushBack (q : VecDeque α) (a : α) : VecDeque α :=
  ⟨q.items ++ [a], if q.items.length = q.capacity then max (2 * q.capacity) 4 else q.capacity⟩

def popFront (q : VecDeque α) : Option (α × VecDeque α) :=
  match q.items with
  | [] => none
  | a :: as => some (a, ⟨as, q.capacity⟩)

end VecDeque

/-! ## Traversals -/

namespace Tree
variable {β μ : Type}

/-- Visit the nodes in the order of the layout, with the level of each inner
    node. -/
def foldDepth {A : Type} (funMerge : ℕ → A → μ → A) (funBase : A → β → A) (init : A) (t : Tree β μ) : A :=
  t.values.zipIdx.foldl (fun acc x => x.1.elim (funBase acc) (funMerge (depthAt x.2) acc)) init

section UpdateSplit
variable {D W R : Type} (funMerge : List D → ℕ → μ → Except Panic (μ × Option R))
  (funBase : List D → β → Except Panic β) (weightMerge : μ → W × W) (updateLevel : ℕ)
  (jobsSplit : W × W → List D → List D × List D)

def updateSplitLoop : ℕ → List (Value β μ) → VecDeque (List D) → Option (Option R) →
    Except Panic (List (Value β μ) × VecDeque (List D) × Option (Option R))
  | _, [], fifo, scanResult => .ok ([], fifo, scanResult)
  | index, value :: rest, fifo, scanResult =>
    let depth := depthAt index
    if updateLevel < depth then do
      let (values, fifo, scanResult) ← updateSplitLoop (index + 1) rest fifo scanResult
      .ok (value :: values, fifo, scanResult)
    else
      match fifo.popFront with
      | none => .error .emptyFifo
      | some (jobsForThis, fifo) =>
        match value with
        | .leaf base => do
          let base ← funBase jobsForThis base
          let (values, fifo, scanResult) ← updateSplitLoop (index + 1) rest fifo scanResult
          .ok (.leaf base :: values, fifo, scanResult)
        | .node merge => do
          let (jobsLeft, jobsRight) := jobsSplit (weightMerge merge) jobsForThis
          let fifo := (fifo.pushBack jobsLeft).pushBack jobsRight
          let (merge, result) ← funMerge jobsForThis depth merge
          let scanResult := if scanResult.isNone then some result else scanResult
          let (values, fifo, scanResult) ← updateSplitLoop (index + 1) rest fifo scanResult
          .ok (.node merge :: values, fifo, scanResult)

/-- The tree is perfect, so the two slices a node pushes are popped by its children. -/
def updateSplit (jobs : List D) (t : Tree β μ) : Except Panic (Tree β μ × Option R) := do
  let jobsFifo := (VecDeque.withCapacity t.values.length).pushBack jobs
  let (values, jobsFifo, scanResult) ← updateSplitLoop funMerge funBase weightMerge updateLevel
    jobsSplit 0 t.values jobsFifo none
  ensure .fifoCapacity (jobsFifo.capacity = t.values.length)
  .ok (⟨values⟩, scanResult.join)

end UpdateSplit

section UpdateAccumulate
variable {D : Type} (funMerge : D × D → μ → μ × D) (funBase : β → β × D)

def childsOf (datas : List (Option D)) (index : ℕ) : Option ((D × D) × List (Option D)) := do
  let left ← (datas[2 * index + 1]?).join
  let datas := datas.set (2 * index + 1) none
  let right ← (datas[2 * index + 2]?).join
  some ((left, right), datas.set (2 * index + 2) none)

/-- The loop of `update_accumulate`: the values after `index` come first. -/
def updateAccumulateLoop : ℕ → List (Value β μ) → List (Option D) →
    Except Panic (List (Value β μ) × List (Option D))
  | _, [], datas => .ok ([], datas)
  | index, value :: rest, datas => do
    let (values, datas) ← updateAccumulateLoop (index + 1) rest datas
    match value with
    | .leaf base =>
      let (newBase, countList) := funBase base
      .ok (.leaf newBase :: values, datas.set index (some countList))
    | .node merge =>
      match childsOf datas index with
      | none => .error .missingData
      | some (children, datas) =>
        let (newMerge, countList) := funMerge children merge
        .ok (.node newMerge :: values, datas.set index (some countList))

/-- From the last node to the first, each inner one from the data of its children. -/
def updateAccumulate (t : Tree β μ) : Except Panic (Tree β μ × D) := do
  let (values, datas) ← updateAccumulateLoop funMerge funBase 0 t.values
    (List.replicate t.values.length none)
  match (datas[0]?).join with
  | none => .error .missingData
  | some data => .ok (⟨values⟩, data)

end UpdateAccumulate

end Tree

/-! ## Updating a tree -/

section Update
variable {B M : Type}

/-- One level above the updated one new merge jobs are made, at the updated level jobs are
    marked done, and higher up only the weights change. -/
def addMerges (updateLevel sequenceNo : ℕ) (lens : WeightLens) (jobs : List (Job B M))
    (currentLevel : ℕ) (mergeJob : Merge M) : Except Panic (Merge M × Option M) :=
  let w1 := mergeJob.weight.1
  let w2 := mergeJob.weight.2
  let left := lens.get w1
  let right := lens.get w2
  if 0 < updateLevel ∧ currentLevel = updateLevel - 1 then
    match jobs, mergeJob.job with
    | [], m => .ok (⟨(w1, w2), m⟩, none)
    | [.merge a, .merge b], .empty => do
      let w1 := lens.set w1 (← checkedSub .underflow left 1)
      let w2 := lens.set w2 (← checkedSub .underflow right 1)
      .ok (⟨(w1, w2), .full ⟨a, b, sequenceNo, .todo⟩⟩, none)
    | [.merge a], .empty => do
      let w1 := lens.set w1 (← checkedSub .underflow left 1)
      let w2 := lens.set w2 right
      .ok (⟨(w1, w2), .part a⟩, none)
    | [.merge b], .part a => do
      let w1 := lens.set w1 left
      let w2 := lens.set w2 (← checkedSub .underflow right 1)
      .ok (⟨(w1, w2), .full ⟨a, b, sequenceNo, .todo⟩⟩, none)
    | [.base _], .empty =>
      -- the first or the second of the two base jobs
      if left = 0 then do
        let w1 := lens.set w1 left
        let w2 := lens.set w2 (← checkedSub .underflow right 1)
        .ok (⟨(w1, w2), .empty⟩, none)
      else do
        let w1 := lens.set w1 (← checkedSub .underflow left 1)
        let w2 := lens.set w2 right
        .ok (⟨(w1, w2), .empty⟩, none)
    | [.base _, .base _], .empty => do
      let w1 := lens.set w1 (← checkedSub .underflow left 1)
      let w2 := lens.set w2 (← checkedSub .underflow right 1)
      .ok (⟨(w1, w2), .empty⟩, none)
    | _, _ => .error .mergeNode
  else if currentLevel = updateLevel then
    match jobs, mergeJob.job with
    | [.merge a], .full x =>
      if x.state = .todo then
        let newJob := .full { x with state := .done }
        if currentLevel = 0 then .ok (⟨(lens.set w1 0, lens.set w2 0), newJob⟩, some a)
        else .ok (⟨(w1, w2), newJob⟩, none)
      else .error .mergeNode
    | [], m => .ok (⟨(w1, w2), m⟩, none)
    | _, _ => .error .mergeNode
  else if 0 < updateLevel ∧ currentLevel < updateLevel - 1 then
    match jobs with
    | [] => .ok (mergeJob, none)
    | _ => do
      let jobsSentLeft := min jobs.length left
      let jobsSentRight := min (← checkedSub .underflow jobs.length jobsSentLeft) right
      let w1 := lens.set w1 (← checkedSub .underflow left jobsSentLeft)
      let w2 := lens.set w2 (← checkedSub .underflow right jobsSentRight)
      .ok (⟨(w1, w2), mergeJob.job⟩, none)
  else .ok (mergeJob, none)

/-- What `update` does at a leaf: new data fill an empty leaf, a result marks
    the base job done. -/
def addBases (sequenceNo : ℕ) (lens : WeightLens) (jobs : List (Job B M)) (base : Base B) :
    Except Panic (Base B) :=
  match jobs, base.job with
  | [], _ => .ok base
  | [.base d], .empty => do
    let w := lens.set base.weight (← checkedSub .underflow (lens.get base.weight) 1)
    .ok ⟨w, .full ⟨d, sequenceNo, .todo⟩⟩
  | [.merge _], .full b => .ok ⟨base.weight, .full { b with state := .done }⟩
  | _, _ => .error .baseNode

def splitJobs (lens : WeightLens) (w : Weight × Weight) (a : List (Job B M)) :
    List (Job B M) × List (Job B M) :=
  let l := lens.get w.1
  let r := lens.get w.2
  (a.take l, (a.drop l).take r)

inductive ResetKind where
  | base
  | merge
  | both
  deriving DecidableEq, Repr

/-- The second component stands in for a right subtree. -/
def resetBase (resetKind : ResetKind) (base : Base B) : Base B × (Weight × Weight) :=
  let updateMergeWeight (weight : Weight) : Weight :=
    match base.job with
    | .full ⟨_, _, .todo⟩ => WeightLens.merge.set weight 1
    | _ => WeightLens.merge.set weight 0
  let updateBaseWeight (weight : Weight) : Weight :=
    match base.job with
    | .empty => WeightLens.base.set weight 1
    | .full _ => WeightLens.base.set weight 0
  let weight := base.weight
  let (newWeight, dummyRight) := match resetKind with
    | .merge => (updateMergeWeight weight, WeightLens.merge.set weight 0)
    | .base => (updateBaseWeight weight, WeightLens.base.set weight 0)
    | .both => (updateMergeWeight (updateBaseWeight weight), Weight.zero)
  (⟨newWeight, base.job⟩, (newWeight, dummyRight))

/-- The sums over the children, but a merge job still to be done takes one result itself. -/
def resetMerge (resetKind : ResetKind) (lst : (Weight × Weight) × (Weight × Weight))
    (merge : Merge M) : Merge M × (Weight × Weight) :=
  let ((w1, w2), (w3, w4)) := lst
  let reset (lens : WeightLens) (w ww : Weight) : Weight × Weight :=
    (lens.set w (lens.get w1 + lens.get w2), lens.set ww (lens.get w3 + lens.get w4))
  let ww := match resetKind with
    | .merge => match merge.job with
      | .full ⟨_, _, _, .todo⟩ =>
        (WeightLens.merge.set merge.weight.1 1, WeightLens.merge.set merge.weight.2 0)
      | _ => reset .merge merge.weight.1 merge.weight.2
    | .base => reset .base merge.weight.1 merge.weight.2
    | .both =>
      let w := reset .base merge.weight.1 merge.weight.2
      reset .merge w.1 w.2
  (⟨ww, merge.job⟩, ww)

namespace Tree

variable (t : Tree (Base B) (Merge M))

/-- Add jobs to the tree: `completedJobs` are results of jobs on `updateLevel`,
    or new data for the leaves. -/
def update (completedJobs : List (Job B M)) (updateLevel sequenceNo : ℕ) (lens : WeightLens) :
    Except Panic (Tree (Base B) (Merge M) × Option M) :=
  t.updateSplit (addMerges updateLevel sequenceNo lens) (addBases sequenceNo lens)
    (fun merge => merge.weight) updateLevel (splitJobs lens) completedJobs

def resetWeights (resetKind : ResetKind) : Except Panic (Tree (Base B) (Merge M)) := do
  let (result, _) ← t.updateAccumulate (resetMerge resetKind) (resetBase resetKind)
  .ok result

def jobsOnLevel (depth level : ℕ) : List (AvailableJob B M) :=
  t.foldDepth
    (fun i acc a => match a.job with
      | .full ⟨left, right, _, .todo⟩ => if i = level then acc ++ [.merge left right] else acc
      | _ => acc)
    (fun acc d => match d.job with
      | .full ⟨job, _, .todo⟩ => if level = depth then acc ++ [.base job] else acc
      | _ => acc)
    []

def jobsRecords : List (Base.Record B ⊕ Merge.Record M) :=
  t.foldDepth
    (fun _ acc a => match a.job with
      | .full x => acc ++ [.inr x]
      | _ => acc)
    (fun acc d => match d.job with
      | .full j => acc ++ [.inl j]
      | _ => acc)
    []

def baseJobs : List B :=
  t.foldDepth (fun _ acc _ => acc)
    (fun acc d => match d.job with
      | .full ⟨job, _, _⟩ => acc ++ [job]
      | _ => acc)
    []

def leaves : List (Base.Record B) :=
  t.foldDepth (fun _ acc _ => acc)
    (fun acc d => match d.job with
      | .full r => acc ++ [r]
      | _ => acc)
    []

def requiredJobCount : ℕ :=
  match t.values with
  | .node value :: _ => value.weight.1.merge + value.weight.2.merge
  | .leaf base :: _ => base.weight.merge
  | [] => 0

def availableSpace : ℕ :=
  match t.values with
  | .node value :: _ => value.weight.1.base + value.weight.2.base
  | .leaf base :: _ => base.weight.base
  | [] => 0

/-- A tree of empty jobs.  At level `-1` (`none`) the weights are zero. -/
def createTreeForLevel (level : Option ℕ) (depth : ℕ) (mergeJob : Merge.Job M)
    (baseJob : Base.Job B) : Tree (Base B) (Merge M) :=
  let baseWeight : Weight := match level with
    | none => Weight.zero
    | some _ => ⟨1, 0⟩
  let makeMerge (d : ℕ) : Merge M :=
    match level with
    | none => ⟨(Weight.zero, Weight.zero), mergeJob⟩
    | some level =>
      let x := 2 ^ level / 2 ^ (d + 1)
      ⟨(⟨x, 0⟩, ⟨x, 0⟩), mergeJob⟩
  let nnodes := 2 ^ (depth + 1) - 1
  ⟨(List.range nnodes).map fun index =>
    if depthAt index = depth then .leaf ⟨baseWeight, baseJob⟩
    else .node (makeMerge (depthAt index))⟩

def createTree (depth : ℕ) : Tree (Base B) (Merge M) :=
  createTreeForLevel (some depth) depth .empty .empty

end Tree

end Update

end MinaRust.ParallelScan
