/-
  Chain proofs of candidate blocks (`p2p_callbacks_reducer.rs`,
  `transition_frontier_candidate_state.rs`): a root block with the hashes that lead from it
  to a candidate.  A proof comes from a best tip with proof, or from the node's best chain,
  when the candidate extends or replaces its tip.
-/
import MinaRust.TransitionFrontier.Block

namespace MinaRust.TransitionFrontier

open List Option

variable {H B : Type} {hashing : Hashing H B}

/-- The hashes after the root, and the root. -/
abbrev ChainProof (hashing : Hashing H B) := List H × BlockWithHash hashing

/-- The proof leads from its root to the predecessor of the block. -/
def ChainProof.LinkedTo (proof : ChainProof hashing) (b : BlockWithHash hashing) : Prop :=
  hashing.Linked proof.2.hash proof.1 b.predHash

/-! ## Hashes of bodies and of chains -/

def rebuildHashes (hashing : Hashing H B) : H → List B → Option (List H)
  | _, [] => some []
  | predHash, bodyHash :: rest => do
    let hash ← hashing.tryFromHashes predHash bodyHash
    return hash :: (← rebuildHashes hashing hash rest)

theorem length_rebuildHashes {p : H} {bodies : List B} {hs : List H}
    (h : rebuildHashes hashing p bodies = some hs) : hs.length = bodies.length := by
  induction bodies generalizing p hs with
  | nil =>
    cases h
    rfl
  | cons b rest ih =>
    obtain ⟨first, -, h⟩ := bind_eq_some_iff.1 h
    obtain ⟨more, hmore, h⟩ := bind_eq_some_iff.1 h
    cases h
    simp [ih hmore]

theorem rebuildHashes_linked {p : H} {bodies : List B} {hs : List H} (h : rebuildHashes hashing p bodies = some hs)
    (q : H) : hashing.Linked p hs q ↔ q = hs.getLast?.getD p := by
  induction bodies generalizing p hs with
  | nil =>
    cases h
    exact Iff.rfl
  | cons b rest ih =>
    obtain ⟨first, hfirst, h⟩ := bind_eq_some_iff.1 h
    obtain ⟨more, hmore, h⟩ := bind_eq_some_iff.1 h
    cases h
    have isPred : hashing.IsPred p first := ⟨b, hfirst⟩
    rw [Hashing.Linked, ih hmore, and_iff_right isPred, getLast?_cons]
    rfl

/-- The node's best chain: applied blocks, each the child of the one before. -/
structure Frontier (hashing : Hashing H B) where
  bestChain : List (BlockWithHash hashing)
  linked : bestChain.IsChain BlockWithHash.Follows

variable {rest : List (BlockWithHash hashing)} {a : BlockWithHash hashing}

variable {tip : BlockWithHash hashing}

theorem linked_of_isChain (chain : (a :: rest).IsChain BlockWithHash.Follows)
    (last : (a :: rest).getLast? = some tip) :
    hashing.Linked a.hash (rest.map BlockWithHash.hash) tip.hash := by
  induction rest generalizing a with
  | nil =>
    cases last
    rfl
  | cons b rest ih =>
    rw [isChain_cons_cons] at chain
    exact ⟨chain.1.isPred, ih chain.2 last⟩

theorem isChain_of_skip {chain : List (BlockWithHash hashing)} (linked : chain.IsChain BlockWithHash.Follows)
    (skip : Prop) [Decidable skip] (used : (if skip then chain.tail else chain) = a :: rest) :
    (a :: rest).IsChain BlockWithHash.Follows ∧ (a :: rest).getLast? = chain.getLast? := by
  split at used
  · rw [← used]
    refine ⟨linked.tail, ?_⟩
    cases chain with
    | nil => cases used
    | cons first chain =>
      rw [tail_cons] at used ⊢
      rw [used, getLast?_cons_cons]
  · rw [← used]
    exact ⟨linked, rfl⟩

variable {b : BlockWithHash hashing}

theorem linked_dropLast (chain : (a :: b :: rest).IsChain BlockWithHash.Follows)
    (last : (b :: rest).getLast? = some tip) :
    hashing.Linked a.hash ((b :: rest).dropLast.map BlockWithHash.hash) tip.predHash := by
  induction rest generalizing a b with
  | nil =>
    cases last
    exact (isChain_cons_cons.1 chain).1
  | cons c rest ih =>
    rw [isChain_cons_cons] at chain
    exact ⟨chain.1.isPred, ih chain.2 last⟩

/-! ## Candidates -/

variable [DecidableEq H]

/-- The block and the chain proof of `TransitionFrontierCandidateState`. -/
structure CandidateState (hashing : Hashing H B) where
  block : BlockWithHash hashing
  chainProof : Option (ChainProof hashing)

/-- The ordered set of candidates, equal when their hashes are. -/
structure Candidates (hashing : Hashing H B) where
  ordered : List (CandidateState hashing)
  distinct : (ordered.map fun s => s.block.hash).Nodup

namespace Candidates

variable (cs : Candidates hashing) (hash : H)

def get : Option (CandidateState hashing) :=
  cs.ordered.reverse.find? fun s => s.block.hash = hash

def isChainProofNeeded : Bool :=
  match cs.get hash with
  | some s => s.chainProof.isNone
  | none => false

/-- The candidate is taken out and put back with its proof, in the same place since
    its block stays. -/
def setChainProof (proof : ChainProof hashing) : Candidates hashing where
  ordered := cs.ordered.map fun s => if s.block.hash = hash then { s with chainProof := some proof } else s
  distinct := by
    rw [List.map_map]
    convert cs.distinct using 2
    funext s
    simp only [Function.comp_apply]
    split <;> rfl

theorem get_setChainProof (proof : ChainProof hashing) :
    (cs.setChainProof hash proof).get hash = (cs.get hash).map fun s => { s with chainProof := some proof } := by
  rw [get, get, setChainProof, ← map_reverse]
  induction cs.ordered.reverse with
  | nil => rfl
  | cons s rest ih =>
    by_cases here : s.block.hash = hash
    · simp [here]
    · simp [here, ih]

theorem hash_of_get {cs : Candidates hashing} {hash : H} {s : CandidateState hashing} (h : cs.get hash = some s) :
    s.block.hash = hash := by
  have found := List.find?_some h
  exact of_decide_eq_true found

end Candidates

/-! ## A best tip with its proof -/

/-- `P2pRpcResponse::BestTipWithProof`: any blocks and any body hashes. -/
structure BestTipWithProof (H B : Type) where
  bestTip : Block H B
  bodyHashes : List B
  rootBlock : Block H B
  deriving DecidableEq, Repr

def chainProofUpdate (hashing : Hashing H B) (response : BestTipWithProof H B) :
    Option (H × ChainProof hashing) := do
  let bestTip ← BlockWithHash.tryNew hashing response.bestTip
  let rootBlock ← BlockWithHash.tryNew hashing response.rootBlock
  let hashes ← rebuildHashes hashing rootBlock.hash (response.bodyHashes.take (response.bodyHashes.length - 1))
  match hashes.getLast? with
  | some predHash => if predHash ≠ bestTip.predHash then none else some (bestTip.hash, hashes, rootBlock)
  | none => some (bestTip.hash, hashes, rootBlock)

def Candidates.receive (cs : Candidates hashing) (response : BestTipWithProof H B) : Candidates hashing :=
  match chainProofUpdate hashing response with
  | some (hash, proof) => if cs.isChainProofNeeded hash then cs.setChainProof hash proof else cs
  | none => cs

/-- A hash is left to compare, or none is between the root and the tip. -/
def BestTipWithProof.Compared (hashing : Hashing H B) (response : BestTipWithProof H B) : Prop :=
  2 ≤ response.bodyHashes.length ∨
    response.rootBlock.tryHash hashing = some response.bestTip.previousStateHash

variable {proof : ChainProof hashing}

variable {response : BestTipWithProof H B}

theorem chainProofUpdate_eq_some {hash : H} (h : chainProofUpdate hashing response = some (hash, proof)) :
    ∃ bestTip : BlockWithHash hashing, bestTip.block = response.bestTip ∧ bestTip.hash = hash ∧
      proof.2.block = response.rootBlock ∧
      rebuildHashes hashing proof.2.hash (response.bodyHashes.take (response.bodyHashes.length - 1)) = some proof.1 ∧
      ∀ last, proof.1.getLast? = some last → last = bestTip.predHash := by
  obtain ⟨bestTip, tipNew, h⟩ := bind_eq_some_iff.1 h
  obtain ⟨rootBlock, rootNew, h⟩ := bind_eq_some_iff.1 h
  obtain ⟨hashes, rebuilt, h⟩ := bind_eq_some_iff.1 h
  refine ⟨bestTip, BlockWithHash.tryNew_eq_some.1 tipNew, ?_⟩
  split at h
  · next last found =>
    split at h
    · cases h
    · next same =>
      cases h
      refine ⟨rfl, BlockWithHash.tryNew_eq_some.1 rootNew, rebuilt, fun last' found' => ?_⟩
      cases found.symm.trans found'
      exact not_not.1 same
  · next found =>
    cases h
    refine ⟨rfl, BlockWithHash.tryNew_eq_some.1 rootNew, rebuilt, fun last' found' => ?_⟩
    cases found.symm.trans found'

/-- The proof of a response leads to any block with the hash of its tip exactly when
    the response was `Compared`. -/
theorem chainProofUpdate_linked_iff {hash : H} (h : chainProofUpdate hashing response = some (hash, proof))
    (hb : b.hash = hash) : proof.LinkedTo b ↔ response.Compared hashing := by
  obtain ⟨bestTip, tipBlock, tipHash, rootBlock, rebuilt, compared⟩ := chainProofUpdate_eq_some h
  have pred : b.predHash = bestTip.predHash := BlockWithHash.predHash_congr (hb.trans tipHash.symm)
  have length := length_rebuildHashes rebuilt
  rw [length_take] at length
  rw [ChainProof.LinkedTo, rebuildHashes_linked rebuilt, BestTipWithProof.Compared, ← rootBlock, ← tipBlock,
    BlockWithHash.tryHash_eq_some, pred]
  cases last : proof.1.getLast? with
  | some q =>
    -- there are two body hashes or more, and the last rebuilt hash was compared
    have some_hash : proof.1 ≠ [] := by
      rintro none
      rw [none] at last
      cases last
    have := length_pos_iff.2 some_hash
    exact iff_of_true (compared q last).symm (.inl (by omega))
  | none =>
    rw [getLast?_eq_none_iff.1 last] at length
    have few : ¬ 2 ≤ response.bodyHashes.length := by
      simp only [length_nil] at length
      omega
    rw [or_iff_right few]
    rfl

/-! ## The best chain -/

def Frontier.bestTip (frontier : Frontier hashing) : Option (BlockWithHash hashing) := frontier.bestChain.getLast?

def blockChainProof (candidate : CandidateState hashing) (frontier : Frontier hashing) :
    Option (ChainProof hashing) :=
  let predHash := candidate.block.predHash
  candidate.chainProof <|> do
    let oldBestTip ← frontier.bestTip
    if oldBestTip.hash = predHash then
      -- the root moves with the new tip
      match (if oldBestTip.block.height > oldBestTip.block.k then frontier.bestChain.tail else frontier.bestChain) with
      | rootBlock :: rest => some (rest.map BlockWithHash.hash, rootBlock)
      | [] => none
    else if oldBestTip.predHash = predHash then
      match frontier.bestChain with
      | rootBlock :: rest => some (rest.dropLast.map BlockWithHash.hash, rootBlock)
      | [] => none
    else none

theorem blockChainProof_linked_iff {candidate : CandidateState hashing} {frontier : Frontier hashing}
    (none_stored : candidate.chainProof = none) (derived : blockChainProof candidate frontier = some proof) :
    proof.LinkedTo candidate.block ↔
      ∀ only, frontier.bestChain = [only] → candidate.block.predHash = only.hash := by
  obtain ⟨chain, linked⟩ := frontier
  simp only [blockChainProof, none_stored, Frontier.bestTip] at derived
  obtain ⟨tip, last, derived⟩ := bind_eq_some_iff.1 derived
  split at derived
  · -- the candidate extends the tip
    next extends_tip =>
    refine iff_of_true ?_ fun only single => ?_
    · split at derived
      · next root rest used =>
        cases derived
        obtain ⟨part, ends⟩ := isChain_of_skip linked _ used
        rw [ChainProof.LinkedTo, ← extends_tip]
        exact linked_of_isChain part (ends.trans last)
      · cases derived
    · subst single
      cases last
      exact extends_tip.symm
  · next not_tip =>
    split at derived
    · -- the candidate is a sibling of the tip
      next sibling =>
      cases chain with
      | nil => cases last
      | cons root rest =>
        cases derived
        cases rest with
        | nil =>
          constructor
          · intro leads only single
            cases single
            exact leads
          · intro alone
            exact alone root rfl
        | cons next rest =>
          refine iff_of_true ?_ (by simp)
          rw [ChainProof.LinkedTo, ← sibling]
          exact linked_dropLast linked last
    · cases derived

/-- **When chain proofs lead to their candidates**: the proof a response attaches, exactly
    when the response leaves a hash to compare or its tip is a child of its root; the proof
    derived from the best chain, exactly when that chain is not a single sibling. -/
theorem chainProof_linked_iff :
    (∀ (candidates : Candidates hashing) (response : BestTipWithProof H B) (hash : H) (proof : ChainProof hashing)
      (candidate : CandidateState hashing),
      chainProofUpdate hashing response = some (hash, proof) → candidates.get hash = some candidate →
      candidate.chainProof = none →
        (candidates.receive response).get hash = some { candidate with chainProof := some proof } ∧
        (proof.LinkedTo candidate.block ↔ response.Compared hashing)) ∧
    ∀ (candidate : CandidateState hashing) (frontier : Frontier hashing) (proof : ChainProof hashing),
      candidate.chainProof = none → blockChainProof candidate frontier = some proof →
        (proof.LinkedTo candidate.block ↔
          ∀ only, frontier.bestChain = [only] → candidate.block.predHash = only.hash) := by
  refine ⟨fun candidates response hash proof candidate update found needed => ⟨?_, ?_⟩,
    fun _ _ _ => blockChainProof_linked_iff⟩
  · have enabled : candidates.isChainProofNeeded hash = true := by
      simp [Candidates.isChainProofNeeded, found, needed]
    simp only [Candidates.receive, update, enabled, if_true]
    rw [Candidates.get_setChainProof, found]
    rfl
  · exact chainProofUpdate_linked_iff update (Candidates.hash_of_get found)

/-- The candidates with one block that waits for its proof. -/
def waiting (b : BlockWithHash listHashing) : Candidates listHashing := ⟨[⟨b, none⟩], by simp⟩

def threeBlocks : Frontier listHashing where
  bestChain := [listBlock 0 [], listBlock 1 [0], listBlock 2 [1, 0]]
  linked := by simp [BlockWithHash.Follows, BlockWithHash.predHash, listBlock]

/-- A proof with two body hashes below the tip, and the one from the best chain. -/
theorem chainProof_linked_two : (∃ proof, ((waiting (listBlock 3 [2, 1, 0])).receive
        ⟨(listBlock 3 [2, 1, 0]).block, [1, 2, 3], (listBlock 0 []).block⟩).get [3, 2, 1, 0] =
          some ⟨listBlock 3 [2, 1, 0], some proof⟩ ∧ proof.LinkedTo (listBlock 3 [2, 1, 0])) ∧
    ∃ proof : ChainProof listHashing,
      blockChainProof ⟨listBlock 3 [2, 1, 0], none⟩ threeBlocks = some proof ∧ proof.LinkedTo (listBlock 3 [2, 1, 0]) := by
  refine ⟨⟨([[1, 0], [2, 1, 0]], listBlock 0 []), ?_⟩, ([[1, 0], [2, 1, 0]], listBlock 0 []), rfl, ?_⟩
  · obtain ⟨attached, linked⟩ := chainProof_linked_iff.1 (waiting (listBlock 3 [2, 1, 0]))
      ⟨(listBlock 3 [2, 1, 0]).block, [1, 2, 3], (listBlock 0 []).block⟩ [3, 2, 1, 0]
      ([[1, 0], [2, 1, 0]], listBlock 0 []) ⟨listBlock 3 [2, 1, 0], none⟩ rfl rfl rfl
    exact ⟨attached, linked.2 (.inl (by decide))⟩
  · refine (chainProof_linked_iff.2 ⟨listBlock 3 [2, 1, 0], none⟩ threeBlocks _ rfl rfl).2 ?_
    rintro only single
    cases single

/-- A response without body hashes attaches a root that has nothing to do with the tip;
    and a sibling of the only block of the best chain gets that block for its root. -/
theorem chainProof_not_linked : (∃ proof, ((waiting (listBlock 3 [2, 1, 0])).receive
        ⟨(listBlock 3 [2, 1, 0]).block, [], (listBlock 7 []).block⟩).get [3, 2, 1, 0] =
          some ⟨listBlock 3 [2, 1, 0], some proof⟩ ∧ ¬ proof.LinkedTo (listBlock 3 [2, 1, 0])) ∧
    ∃ proof : ChainProof listHashing,
      blockChainProof ⟨listBlock 4 [2, 1, 0], none⟩ ⟨[listBlock 3 [2, 1, 0]], by simp⟩ = some proof ∧
      ¬ proof.LinkedTo (listBlock 4 [2, 1, 0]) := by
  refine ⟨⟨([], listBlock 7 []), rfl, ?_⟩, ([], listBlock 3 [2, 1, 0]), rfl, ?_⟩
  · intro leads
    cases leads
  · intro leads
    cases leads

end MinaRust.TransitionFrontier
