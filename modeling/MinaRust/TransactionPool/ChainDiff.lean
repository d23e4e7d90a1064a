/-
  The diff between the old and the new best chain (`maybe_make_chain_diff` of
  `transition_frontier_state.rs`).

  Chains are listed from the root.  The commands of a block are those of `commands_iter`
  that convert to user commands.
-/
import MinaRust.TransactionPool.FrontierDiff

namespace MinaRust.TransactionPool

open List

variable {Block Cmd : Type} [DecidableEq Block]

def lastIndexOf (block : Block) (chain : List Block) : Option ℕ :=
  (chain.reverse.findIdx? fun b => b = block).map fun i => chain.length - 1 - i

def collectDiff (commands : Block → List Cmd) (diffOldChain diffNewChain : List Block) :
    Option (BestTipDiff Cmd) :=
  let removedCommands := diffOldChain.flatMap commands
  let newCommands := diffNewChain.flatMap commands
  if removedCommands = [] ∧ newCommands = [] then none else some ⟨newCommands, removedCommands⟩

def getFrom (chain : List Block) (start : ℕ) : Option (List Block) :=
  if start ≤ chain.length then some (chain.drop start) else none

def getTo (chain : List Block) (len : ℕ) : Option (List Block) :=
  if len ≤ chain.length then some (chain.take len) else none

def maybeMakeChainDiff (commands : Block → List Cmd) (oldChain newChain : List Block) :
    Except Panic (Option (BestTipDiff Cmd)) :=
  if oldChain.getLast? = newChain.getLast? then .ok none
  else match newChain.head?.bind fun newRoot => lastIndexOf newRoot oldChain with
    | none => .ok (collectDiff commands oldChain newChain)
    | some newChainStartAt => do
      let oldChainAdvanced ← okOr .bugCondition (getFrom oldChain newChainStartAt)
      let len := min oldChainAdvanced.length newChain.length
      let oldPart ← okOr .unwrapNone (getTo oldChainAdvanced len)
      let newPart ← okOr .unwrapNone (getTo newChain len)
      -- the first common block from the end
      let index ← okOr .unwrapNone ((oldPart.reverse.zip newPart.reverse).findIdx? fun (a, b) => a = b)
      let diffStartAt := len - index
      let diffOldChain ← okOr .bugCondition (getFrom oldChainAdvanced diffStartAt)
      let diffNewChain ← okOr .bugCondition (getFrom newChain diffStartAt)
      return collectDiff commands diffOldChain diffNewChain

variable {commands : Block → List Cmd} {oldChain newChain : List Block} {diff : BestTipDiff Cmd}

theorem lastIndexOf_eq {block : Block} {chain : List Block} {i : ℕ} (h : lastIndexOf block chain = some i) :
    chain[i]? = some block := by
  obtain ⟨j, found, rfl⟩ := Option.map_eq_some_iff.1 h
  obtain ⟨hj, same, -⟩ := List.findIdx?_eq_some_iff_getElem.1 found
  rw [length_reverse] at hj
  rw [getElem_reverse, decide_eq_true_eq] at same
  rw [getElem?_eq_getElem (by omega), same]

/-- The chains agree last at the block before the position `fork`. -/
structure ForkAt (old new : List Block) (fork : ℕ) : Prop where
  pos : 0 < fork
  old_le : fork ≤ old.length
  new_le : fork ≤ new.length
  agree : old[fork - 1]? = new[fork - 1]?
  last : ∀ j b, fork ≤ j → old[j]? = some b → new[j]? ≠ some b

variable {root : Block}

theorem forkAt_of_findIdx {old new : List Block} (hold : old.head? = some root) (hnew : new.head? = some root) :
    ∃ index,
    ((old.take (min old.length new.length)).reverse.zip
      (new.take (min old.length new.length)).reverse).findIdx? (fun (a, b) => a = b) = some index ∧
    ForkAt old new (min old.length new.length - index) := by
  have pairs : (old.take (min old.length new.length)).reverse.zip
      (new.take (min old.length new.length)).reverse = (old.zip new).reverse := by
    have cut : old.zip new = _ := zip_eq_zip_take_min
    rw [cut]
    exact (reverse_zipWith (by simp)).symm
  rw [pairs]
  cases search : (old.zip new).reverse.findIdx? fun (a, b) => decide (a = b) with
  | none =>
    have first : (root, root) ∈ (old.zip new).reverse := by
      cases old <;> cases new <;> simp_all
    simpa using List.findIdx?_eq_none_iff.1 search _ first
  | some index =>
    obtain ⟨bound, same, least⟩ := List.findIdx?_eq_some_iff_getElem.1 search
    simp only [getElem_reverse, getElem_zip, length_zip, length_reverse,
      decide_eq_true_eq] at bound same least
    refine ⟨index, rfl, by omega, by omega, by omega, ?_, fun j b le here there => ?_⟩
    · rw [getElem?_eq_getElem (by omega), getElem?_eq_getElem (by omega), Option.some.injEq]
      simpa only [Nat.sub_right_comm _ 1 index] using same
    · obtain ⟨hj, rfl⟩ := List.getElem?_eq_some_iff.1 here
      obtain ⟨hj', eq⟩ := List.getElem?_eq_some_iff.1 there
      refine least (min old.length new.length - 1 - j) (by omega) ?_
      simp [show min old.length new.length - 1 - (min old.length new.length - 1 - j) = j by omega, eq]

/-- **The diff is that of the parts after the fork**, and no access is out of bounds. -/
theorem maybeMakeChainDiff_eq (commands : Block → List Cmd) {i : ℕ}
    (tips : oldChain.getLast? ≠ newChain.getLast?) (head : newChain.head? = some root)
    (start : lastIndexOf root oldChain = some i) :
    ∃ fork, ForkAt (oldChain.drop i) newChain fork ∧ maybeMakeChainDiff commands oldChain newChain =
      .ok (collectDiff commands ((oldChain.drop i).drop fork) (newChain.drop fork)) := by
  obtain ⟨bound, at_i⟩ := List.getElem?_eq_some_iff.1 (lastIndexOf_eq start)
  have advanced : (oldChain.drop i).head? = some root := by
    rw [head?_drop, lastIndexOf_eq start]
  obtain ⟨index, found, fork⟩ := forkAt_of_findIdx advanced head
  refine ⟨_, fork, ?_⟩
  unfold maybeMakeChainDiff
  simp only [if_neg tips, head, Option.bind_some, start, getFrom, getTo, if_pos bound.le, okOr, ok_bind,
    if_pos (min_le_left _ _), if_pos (min_le_right _ _), found, if_pos fork.old_le, if_pos fork.new_le]
  rfl

theorem maybeMakeChainDiff_cases (commands : Block → List Cmd) (oldChain newChain : List Block) :
    maybeMakeChainDiff commands oldChain newChain = .ok none ∨ ∃ old new,
      old <:+ oldChain ∧ maybeMakeChainDiff commands oldChain newChain = .ok (collectDiff commands old new) := by
  by_cases tips : oldChain.getLast? = newChain.getLast?
  · exact .inl (if_pos tips)
  refine .inr ?_
  cases start : newChain.head?.bind fun newRoot => lastIndexOf newRoot oldChain with
  | none =>
    refine ⟨oldChain, newChain, suffix_refl _, ?_⟩
    rw [maybeMakeChainDiff, if_neg tips, start]
  | some i =>
    obtain ⟨root, head, start⟩ := Option.bind_eq_some_iff.1 start
    obtain ⟨fork, -, eq⟩ := maybeMakeChainDiff_eq commands tips head start
    exact ⟨_, _, (drop_suffix _ _).trans (drop_suffix _ _), eq⟩

/-- **The rolled back commands are those of an end of the old chain**, in the order of the
    chain. -/
theorem maybeMakeChainDiff_removed (h : maybeMakeChainDiff commands oldChain newChain = .ok (some diff)) :
    ∃ rolledBack, rolledBack <:+ oldChain ∧ diff.removedCommands = rolledBack.flatMap commands := by
  obtain eq | ⟨old, new, suffix, eq⟩ := maybeMakeChainDiff_cases commands oldChain newChain
  · cases h.symm.trans eq
  · refine ⟨old, suffix, ?_⟩
    rw [h, Except.ok.injEq, collectDiff] at eq
    split at eq
    · cases eq
    · cases eq
      rfl

/-! ## Hash-linked chains -/

/-- The ancestors of a block, the nearest first, are determined by the block; in a chain
    they are the blocks before it. -/
def Linked (ancestors : Block → List Block) (chain : List Block) : Prop :=
  chain.IsChain fun a b => ancestors b = a :: ancestors a

variable {ancestors : Block → List Block} {chain : List Block}

omit [DecidableEq Block] in
theorem Linked.ancestors_eq {b : Block} (linked : Linked ancestors chain) (head : chain.head? = some root) :
    ∀ {i : ℕ}, chain[i]? = some b → b :: ancestors b = (chain.take (i + 1)).reverse ++ ancestors root := by
  induction chain generalizing root with
  | nil => cases head
  | cons c chain ih =>
    cases head
    intro i found
    cases i with
    | zero =>
      cases found
      rfl
    | succ i =>
      cases chain with
      | nil => cases found
      | cons d chain =>
        obtain ⟨parent, linked⟩ := isChain_cons_cons.1 linked
        rw [ih linked rfl found, parent]
        simp

omit [DecidableEq Block] in
/-- A block of two linked chains with one root has the same blocks before it in both. -/
theorem Linked.take_eq {b : Block} {old new : List Block} (hold : Linked ancestors old)
    (hnew : Linked ancestors new) (oldHead : old.head? = some root) (newHead : new.head? = some root) {i j : ℕ}
    (here : old[i]? = some b) (there : new[j]? = some b) : i = j ∧ old.take (i + 1) = new.take (i + 1) := by
  have eq := (hold.ancestors_eq oldHead here).symm.trans (hnew.ancestors_eq newHead there)
  have prefixes := reverse_injective (append_cancel_right eq)
  have lengths := congrArg List.length prefixes
  obtain ⟨hi, -⟩ := List.getElem?_eq_some_iff.1 here
  obtain ⟨hj, -⟩ := List.getElem?_eq_some_iff.1 there
  rw [length_take, length_take] at lengths
  obtain rfl : i = j := by omega
  exact ⟨rfl, prefixes⟩

/-- **The diff of two hash-linked chains**: what comes after their last common block. -/
theorem chain_diff_exact (commands : Block → List Cmd) {oldChain newChain : List Block} {root : Block}
    (oldLinked : Linked ancestors oldChain) (newLinked : Linked ancestors newChain)
    (head : newChain.head? = some root) (shared : root ∈ oldChain)
    (tips : oldChain.getLast? ≠ newChain.getLast?) :
    ∃ before common removed new, oldChain = before ++ (common ++ removed) ∧ newChain = common ++ new ∧
      common.head? = some root ∧ (∀ b ∈ removed, b ∉ newChain) ∧
      maybeMakeChainDiff commands oldChain newChain =
        .ok (if removed.flatMap commands = [] ∧ new.flatMap commands = [] then none
          else some ⟨new.flatMap commands, removed.flatMap commands⟩) := by
  obtain ⟨i, start⟩ : ∃ i, lastIndexOf root oldChain = some i := by
    cases search : oldChain.reverse.findIdx? fun b => decide (b = root) with
    | none => simpa using List.findIdx?_eq_none_iff.1 search _ (mem_reverse.2 shared)
    | some i => exact ⟨_, congrArg (Option.map _) search⟩
  have oldHead : (oldChain.drop i).head? = some root := by rw [head?_drop, lastIndexOf_eq start]
  have linked : Linked ancestors (oldChain.drop i) := oldLinked.drop i
  obtain ⟨fork, at_fork, eq⟩ := maybeMakeChainDiff_eq commands tips head start
  have lt : fork - 1 < newChain.length := by
    have := at_fork.pos
    have := at_fork.new_le
    omega
  have there := List.getElem?_eq_getElem lt
  have same := (linked.take_eq newLinked oldHead head (at_fork.agree.trans there) there).2
  rw [Nat.sub_add_cancel at_fork.pos] at same
  refine ⟨oldChain.take i, newChain.take fork, (oldChain.drop i).drop fork, newChain.drop fork, ?_, ?_, ?_, ?_, eq⟩
  · rw [← same, take_append_drop, take_append_drop]
  · rw [take_append_drop]
  · rw [head?_take, if_neg at_fork.pos.ne', head]
  · intro b mem mem'
    obtain ⟨j, found⟩ := mem_iff_getElem?.1 mem
    obtain ⟨k, there⟩ := mem_iff_getElem?.1 mem'
    rw [getElem?_drop] at found
    obtain ⟨rfl, -⟩ := linked.take_eq newLinked oldHead head found there
    exact at_fork.last _ b (Nat.le_add_right _ _) found there

def forked : ℕ → List ℕ
  | 0 => []
  | 10 => [0]
  | 31 => [21, 10, 0]
  | _ => [10, 0]

/-- The chain with the tip `31` takes the place of that with the tip `20`. -/
theorem chain_diff_fork : ∃ before common removed new, [0, 10, 20] = before ++ (common ++ removed) ∧
    [10, 21, 31] = common ++ new ∧ ∀ b ∈ removed, b ∉ [10, 21, 31] := by
  have old : Linked forked [0, 10, 20] := .cons_cons rfl (.cons_cons rfl (.singleton _))
  have new : Linked forked [10, 21, 31] := .cons_cons rfl (.cons_cons rfl (.singleton _))
  obtain ⟨before, common, removed, new, old, eq, -, apart, -⟩ :=
    chain_diff_exact (fun b => [b]) old new rfl (by decide) (by decide)
  exact ⟨before, common, removed, new, old, eq, apart⟩

/-- Without commands after the last common block there is no diff. -/
theorem chain_diff_none : maybeMakeChainDiff (fun _ : ℕ => ([] : List ℕ)) [0, 1] [0, 2] = .ok none := rfl

end MinaRust.TransactionPool
