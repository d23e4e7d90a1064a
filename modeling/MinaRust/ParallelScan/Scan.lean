/-
  The parallel scan (`ParallelScan` of `parallel_scan.rs`).

  New data fill the leaves of the current tree, `trees[0]`.  The tree at position `i` of
  `trees[1..]` is worked on when `i % delay = delay - 1`, with `delay` the number of trees
  skipped (plus one), at level `depth - i / delay`.  The result of the last tree's root is
  emitted with the data of its leaves.  `update` has the arithmetic of its log lines, which
  can underflow; their text is left out.
-/
import MinaRust.ParallelScan.Tree

namespace MinaRust

open ParallelScan

/-- `trees[0]` and `trees[1..]`, the last emitted result with its data, and the number of the
    last update. -/
structure ParallelScan (B M : Type) where
  currTree : Tree (Base B) (Merge M)
  olderTrees : List (Tree (Base B) (Merge M))
  acc : Option (M × List B)
  currJobSeqNo : ℕ
  maxBaseJobs : ℕ
  delay : ℕ
  deriving DecidableEq, Repr

namespace ParallelScan

variable (n : ℕ)

/-- `u64::BITS - (n - 1).leading_zeros()`, for `0 < n`. -/
def ceilLog2 : ℕ := if n = 1 then 0 else Nat.log 2 (n - 1) + 1

inductive WorkForTree where
  | current
  | next
  deriving DecidableEq, Repr

variable {B M : Type}

/-- The jobs of the trees worked on: the `i`-th of them at level `depth - i`. -/
def workToDo (trees : List (Tree (Base B) (Merge M))) (maxBaseJobs : ℕ) : List (AvailableJob B M) :=
  let depth := ceilLog2 maxBaseJobs
  trees.zipIdx.flatMap fun (tree, i) => tree.jobsOnLevel depth (depth - i)

/-- Every `delay`-th tree is worked on, at most `depth + 1` of them. -/
def work (trees : List (Tree (Base B) (Merge M))) (delay maxBaseJobs : ℕ) : List (AvailableJob B M) :=
  let depth := ceilLog2 maxBaseJobs
  let workTrees := (trees.zipIdx.filterMap fun (t, i) =>
    if i % delay = delay - 1 then some t else none).take (depth + 1)
  workToDo workTrees maxBaseJobs

variable (oldestSeqNo : ℕ) (s : ParallelScan B M) (data : List B) (completedJobs : List M) (baseKind : B → ℕ)
  (maxBaseJobs : ℕ)

def empty (delay : ℕ) : ParallelScan B M where
  currTree := Tree.createTree (ceilLog2 maxBaseJobs)
  olderTrees := []
  acc := none
  currJobSeqNo := 0
  maxBaseJobs := maxBaseJobs
  delay := delay

def trees : List (Tree (Base B) (Merge M)) := s.currTree :: s.olderTrees

def maxTrees : ℕ := (ceilLog2 s.maxBaseJobs + 1) * (s.delay + 1) + 1

def workForTree (dataTree : WorkForTree) : List (AvailableJob B M) :=
  let delay := s.delay + 1
  let trees := match dataTree with
    | .current => s.olderTrees
    | .next => s.trees
  work trees delay s.maxBaseJobs

/-- The loop of `all_work`: push an empty tree in front and collect the work of
    the trees behind it. -/
def allWorkLoop (depth : ℕ) : ℕ → ParallelScan B M → List (List (AvailableJob B M))
  | 0, _ => []
  | n + 1, s =>
    let s := { s with currTree := Tree.createTree depth, olderTrees := s.trees }
    let work := s.workForTree .current
    if work.isEmpty then allWorkLoop depth n s else work :: allWorkLoop depth n s

def allWork : List (List (AvailableJob B M)) :=
  let depth := ceilLog2 s.maxBaseJobs
  let set1 := s.workForTree .current
  set1 :: allWorkLoop depth (s.delay + 1) s

def allJobs : List (List (AvailableJob B M)) := s.allWork

variable (dataCount : ℕ)

def workForNextUpdate : List (List (AvailableJob B M)) :=
  let delay := s.delay + 1
  let currentTreeSpace := s.currTree.availableSpace
  let set1 := work s.olderTrees delay s.maxBaseJobs
  let count := min dataCount s.maxBaseJobs
  if currentTreeSpace < count then
    let set2 := (work s.trees delay s.maxBaseJobs).take ((count - currentTreeSpace) * 2)
    [set1, set2].filter fun v => !v.isEmpty
  else
    let set1 := set1.take (2 * count)
    if set1.isEmpty then [] else [set1]

def freeSpaceOnCurrentTree : ℕ := s.currTree.availableSpace

/-! ## Completed jobs -/

/-- The statistics of an update: position, level and number of jobs of each
    updated tree. -/
abbrev Stats := List (ℕ × ℕ × ℕ)

/-- Every `delay`-th tree takes the jobs it requires; the result kept is that of the last one. -/
def updateTreesLoop (delay depth sequenceNo : ℕ) : ℕ → List (Job B M) → Option M → Stats →
    List (Tree (Base B) (Merge M)) →
    Except Panic (List (Tree (Base B) (Merge M)) × Option M × Stats)
  | _, _, scanResult, stats, [] => .ok ([], scanResult, stats)
  | i, jobs, scanResult, stats, tree :: rest =>
    if i % delay = delay - 1 ∧ jobs ≠ [] then do
      let nrequired := tree.requiredJobCount
      let completedJobs := jobs.take nrequired
      let level ← checkedSub .underflow depth (i / delay)
      ensure .duplicateStats (∀ entry ∈ stats, entry.1 ≠ i)
      let stats := stats ++ [(i, level, completedJobs.length)]
      let (tree, result) ← tree.update completedJobs level sequenceNo .merge
      let (trees, scanResult, stats) ← updateTreesLoop delay depth sequenceNo (i + 1)
        (jobs.drop nrequired) result stats rest
      .ok (tree :: trees, scanResult, stats)
    else do
      let (trees, scanResult, stats) ← updateTreesLoop delay depth sequenceNo (i + 1) jobs
        scanResult stats rest
      .ok (tree :: trees, scanResult, stats)

/-- The arithmetic of the log lines of `add_merge_jobs`. -/
def logStats (ntrees : ℕ) (emitted : Bool) : Stats → Except Panic Unit
  | [] => .ok ()
  | (index, level, _) :: rest => do
    let index ← checkedSub .underflow (← checkedSub .underflow ntrees index) 2
    if emitted ∧ index = 0 then logStats ntrees emitted rest
    else do
      let _ ← checkedSub .underflow level 1
      logStats ntrees emitted rest

/-- When the last tree is finished, its result is emitted with its data; then, or when all the
    work is done, the weights are reset. -/
def emitResult (ncompleted nrequired : ℕ) (updatedTrees : List (Tree (Base B) (Merge M))) (resultOpt : Option M) :
    Except Panic (ParallelScan B M × Option (M × List B)) := do
  let (updatedTrees, resultOpt) := match resultOpt, updatedTrees.getLast? with
    | some scanResult, some last => (updatedTrees.dropLast, some (scanResult, last.baseJobs))
    | _, _ => (updatedTrees, none)
  let updatedTrees ←
    if resultOpt.isSome ∨ (updatedTrees.length + 1 < s.maxTrees ∧ ncompleted = nrequired) then
      updatedTrees.mapM fun tree => tree.resetWeights .merge
    else .ok updatedTrees
  .ok ({ s with olderTrees := updatedTrees }, resultOpt)

def addMergeJobs : Except Panic (ParallelScan B M × Option (M × List B)) :=
  if completedJobs.isEmpty then .ok (s, none)
  else do
    let delay := s.delay + 1
    let depth := ceilLog2 s.maxBaseJobs
    let mergeJobs := completedJobs.map Job.merge
    let jobsRequired := s.workForTree .current
    ensure .moreWorkThanRequired (mergeJobs.length ≤ jobsRequired.length)
    let (updatedTrees, resultOpt, stats) ← updateTreesLoop delay depth s.currJobSeqNo 0 mergeJobs
      none [] s.olderTrees
    logStats s.trees.length resultOpt.isSome stats.reverse
    s.emitResult completedJobs.length jobsRequired.length updatedTrees resultOpt

/-! ## New data -/

/-- Group neighbouring base jobs of the same kind, for the log. -/
def foldKinds (baseKind : B → ℕ) : List B → List (ℕ × ℕ) → List (ℕ × ℕ)
  | [], accum => accum
  | b :: bases, accum =>
    let kind := baseKind b
    foldKinds baseKind bases <| match accum.getLast? with
      | some last => if last.1 = kind then accum.dropLast ++ [(last.1, last.2 + 1)]
        else accum ++ [(kind, 1)]
      | none => accum ++ [(kind, 1)]

/-- The log lines of `add_data`: kinds are command, fee transfer, coinbase and
    (`10`) empty. -/
def logKinds (ntrees : ℕ) (bases : List B) : Except Panic Unit := do
  let _ ← checkedSub .underflow ntrees 1
  let folded := foldKinds baseKind bases []
  let totalFolded := (folded.map Prod.snd).sum
  let folded ←
    if totalFolded ≠ maxBaseJobs then do
      .ok (folded ++ [(10, ← checkedSub .underflow maxBaseJobs totalFolded)])
    else .ok folded
  ensure .unknownBaseKind (∀ entry ∈ folded, entry.1 ∈ [0, 1, 2, 10])

/-- Add data to the current tree; a tree that becomes full makes place for a new
    one. -/
def addData : Except Panic (ParallelScan B M) :=
  if data.isEmpty then .ok s
  else do
    let depth := ceilLog2 s.maxBaseJobs
    let tree := s.currTree
    let baseJobs := data.map Job.base
    let availableSpace := tree.availableSpace
    ensure .exceededAvailableSpace (data.length ≤ availableSpace)
    let (tree, _) ← tree.update baseJobs depth s.currJobSeqNo .base
    let bases := tree.baseJobs
    let s' : ParallelScan B M ←
      if data.length = availableSpace then do
        let newTree := Tree.createTree depth
        let tree ← tree.resetWeights .both
        .ok { s with currTree := newTree, olderTrees := tree :: s.olderTrees }
      else do
        let tree ← tree.resetWeights .merge
        .ok { s with currTree := tree }
    logKinds baseKind s.maxBaseJobs s.trees.length bases
    .ok s'

/-! ## Sequence numbers -/

def u64Max : ℕ := 2 ^ 64 - 1

/-- Renumber the job of a node, the oldest one becoming number one. -/
def renumberValue : Value (Base B) (Merge M) → Except Panic (Value (Base B) (Merge M))
  | .node m => match m.job with
    | .full r => do
      let n ← checkedSub .underflow r.seqNo oldestSeqNo
      .ok (.node ⟨m.weight, .full { r with seqNo := n + 1 }⟩)
    | _ => .ok (.node m)
  | .leaf b => match b.job with
    | .full r => do
      let n ← checkedSub .underflow r.seqNo oldestSeqNo
      .ok (.leaf ⟨b.weight, .full { r with seqNo := n + 1 }⟩)
    | .empty => .ok (.leaf b)

def renumberTree (t : Tree (Base B) (Merge M)) : Except Panic (Tree (Base B) (Merge M)) := do
  let values ← t.values.mapM (renumberValue oldestSeqNo)
  .ok ⟨values⟩

/-- Renumber all jobs; the current number becomes the largest one of a last
    leaf. -/
def resetSeqNo : Except Panic (ParallelScan B M) := do
  let last := s.olderTrees.getLastD s.currTree
  let oldestSeqNo := last.leaves.head?.elim 0 fun r => r.seqNo
  let currTree ← renumberTree oldestSeqNo s.currTree
  let olderTrees ← s.olderTrees.mapM (renumberTree oldestSeqNo)
  let maxSeq := (currTree :: olderTrees).foldl (fun maxSeq tree =>
    tree.leaves.getLast?.elim maxSeq fun r => max maxSeq r.seqNo) 0
  .ok { s with currTree := currTree, olderTrees := olderTrees, currJobSeqNo := maxSeq }

def incrSequenceNo : Except Panic (ParallelScan B M) :=
  let nextSeqNo := s.currJobSeqNo + 1
  if nextSeqNo = u64Max then s.resetSeqNo else .ok { s with currJobSeqNo := nextSeqNo }

/-! ## Updates -/

def divCeil2 : ℕ := (n + 1) / 2

/-- The right operand of the conjunction is evaluated only when the left one holds. -/
def checkJobs (requiredJobsCount completedCount : ℕ) : Except Panic Unit :=
  let required := divCeil2 requiredJobsCount
  let got := divCeil2 completedCount
  if got < required then do
    let rest ← checkedSub .underflow maxBaseJobs required
    ensure .insufficientJobs (¬ rest + got < dataCount)
  else .ok ()

def updateSet (jobs : List M) (data : List B) (baseKind : B → ℕ) :
    Except Panic (ParallelScan B M × Option (M × List B)) := do
  let (s, resultOpt) ← s.addMergeJobs jobs
  let s ← s.addData data baseKind
  .ok (s, resultOpt)

/-- The data that do not fit go to a new tree, with a second set of jobs whose result is not
    returned. -/
def updateSets : Except Panic (ParallelScan B M × Option (M × List B)) := do
  let delay := s.delay + 1
  let availableSpace := s.currTree.availableSpace
  let (data1, data2) := (data.take availableSpace, data.drop availableSpace)
  let requiredJobsForCurrentTree := (work s.olderTrees delay s.maxBaseJobs).length
  let (jobs1, jobs2) := (completedJobs.take requiredJobsForCurrentTree,
    completedJobs.drop requiredJobsForCurrentTree)
  let (s, resultOpt) ← s.updateSet jobs1 data1 baseKind
  let (s, _) ← s.updateSet jobs2 data2 baseKind
  let s := if resultOpt.isSome then { s with acc := resultOpt } else s
  ensure .tooManyTrees (s.trees.length ≤ s.maxTrees)
  .ok (s, resultOpt)

def updateHelper : Except Panic (ParallelScan B M × Option (M × List B)) := do
  ensure .exceededMaximum (data.length ≤ s.maxBaseJobs)
  let requiredJobsCount := (s.workForNextUpdate data.length).flatten.length
  checkJobs s.maxBaseJobs data.length requiredJobsCount completedJobs.length
  let s ← s.incrSequenceNo
  s.updateSets data completedJobs baseKind

def update : Except Panic (ParallelScan B M × Option (M × List B)) :=
  s.updateHelper data completedJobs baseKind

/-! ## Observations -/

def pendingData : List (List B) := s.trees.reverse.map Tree.baseJobs

/-- Count a merge job; one that has only its left result is half a job. -/
def countMerge : ℚ × ℚ → Merge M → ℚ × ℚ
  | (ntodo, ndone), merge => match merge.job with
    | .part _ => (ntodo + 1 / 2, ndone)
    | .full ⟨_, _, _, .todo⟩ => (ntodo + 1, ndone)
    | .full ⟨_, _, _, .done⟩ => (ntodo, ndone + 1)
    | .empty => (ntodo, ndone)

def countBase : ℚ × ℚ → Base B → ℚ × ℚ
  | (ntodo, ndone), base => match base.job with
    | .empty => (ntodo, ndone)
    | .full ⟨_, _, .todo⟩ => (ntodo + 1, ndone)
    | .full ⟨_, _, .done⟩ => (ntodo, ndone + 1)

def jobCount : ℚ × ℚ :=
  s.trees.reverse.foldl (fun accum tree => tree.foldDepth (fun _ => countMerge) countBase accum) (0, 0)

/-- Space and number of jobs on the current tree and, when less than
    `max_base_jobs` fits there, on a new tree. -/
structure SpacePartition where
  first : ℕ × ℕ
  second : Option (ℕ × ℕ)
  deriving DecidableEq, Repr

def partitionIfOverflowing : SpacePartition :=
  let curTreeSpace := s.freeSpaceOnCurrentTree
  let workCount := (s.workForTree .current).length
  let workCountNewTree := (s.workForTree .next).length
  { first := (curTreeSpace, workCount)
    second :=
      if curTreeSpace < s.maxBaseJobs then
        let slots := s.maxBaseJobs - curTreeSpace
        some (slots, min workCountNewTree (2 * slots))
      else none }

end ParallelScan

end MinaRust
