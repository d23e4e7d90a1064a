/-
  What the operations do to the membership of a pool, whether or not its indexes agree.
-/
import MinaRust.TransactionPool.Removal

set_option linter.unusedSectionVars false

namespace MinaRust.TransactionPool.IndexedPool

open List

variable {Cmd A Hash R : Type} [PoolCommand Cmd A Hash R]
  [DecidableEq Cmd] [DecidableEq A] [LinearOrder Hash] [LinearOrder R]
  {p p' p'' : IndexedPool Cmd A Hash R} {c d : Cmd}

/-! ## Adding -/

@[simp] theorem member_insertApplicable : (p.insertApplicable c).member d ↔ p.member d := Iff.rfl

theorem insertCommand_allByHash (p : IndexedPool Cmd A Hash R) (c : Cmd) :
    (p.insertCommand c).allByHash = p.allByHash.insert (hash c) c := by
  unfold insertCommand addToExpiration
  split <;> rfl

@[simp] theorem member_insertCommand : (p.insertCommand c).member d ↔ d = c ∨ p.member d := by
  unfold member
  rw [insertCommand_allByHash, AList.mem_insert, PoolCommand.hash_injective.eq_iff]

variable (b : SenderState Cmd A)

theorem member_setSender : (p.setSender b).member d ↔ p.member d := by
  unfold setSender
  split <;> exact Iff.rfl

theorem setSender_size : (p.setSender b).size = p.size := by
  unfold setSender
  split <;> rfl

theorem addFromBacktrack_member {slot current : ℕ} (run : p.addFromBacktrack slot current c = .ok p') :
    (∀ d, p'.member d ↔ d = c ∨ p.member d) ∧ p'.size = p.size + 1 := by
  obtain ⟨-, -, run⟩ := bind_eq_ok.1 run
  obtain ⟨-, -, run⟩ := bind_eq_ok.1 run
  obtain ⟨consumed, -, run⟩ := bind_eq_ok.1 run
  cases state : p.allBySender.lookup (feePayer c) with
  | none =>
    simp only [state] at run
    cases run
    exact ⟨fun d => member_insertCommand, insertCommand_size _ _⟩
  | some e =>
    simp only [state] at run
    obtain ⟨first, -, run⟩ := bind_eq_ok.1 run
    obtain ⟨-, -, run⟩ := bind_eq_ok.1 run
    obtain ⟨r, -, run⟩ := bind_eq_ok.1 run
    cases run
    exact ⟨fun d => member_insertCommand, insertCommand_size _ _⟩

/-! ## Removing -/

/-- **Exactly the commands in `dropped` leave the pool.** -/
structure Drops (p p' : IndexedPool Cmd A Hash R) (dropped : List Cmd) : Prop where
  member : ∀ d, p'.member d ↔ p.member d ∧ d ∉ dropped
  size : p'.size + dropped.length = p.size

theorem Drops.refl (p : IndexedPool Cmd A Hash R) : Drops p p [] := by
  constructor <;> simp

theorem Drops.trans {ds ds' : List Cmd} (h : Drops p p' ds) (h' : Drops p' p'' ds') :
    Drops p p'' (ds ++ ds') where
  member d := by rw [h'.member, h.member, mem_append, not_or, and_assoc]
  size := by
    have first := h.size
    have second := h'.size
    rw [length_append]
    omega

theorem Drops.size_le {ds : List Cmd} (h : Drops p p' ds) : p'.size ≤ p.size := by
  have size := h.size
  omega

theorem removeCommand_drops (run : p.removeCommand c = .ok p') : Drops p p' [c] := by
  have fields : ∀ q : IndexedPool Cmd A Hash R, (q.removeFromExpirationExn c).allByHash = q.allByHash ∧
      (q.removeFromExpirationExn c).size = q.size := by
    intro q
    unfold removeFromExpirationExn
    split <;> exact ⟨rfl, rfl⟩
  obtain ⟨size, hsize, done⟩ := bind_eq_ok.1 run
  cases done
  obtain ⟨le, rfl⟩ := checkedSub_eq_ok.1 hsize
  constructor
  · intro d
    unfold member
    simp only [(fields _).1, AList.mem_erase, ne_eq, PoolCommand.hash_injective.eq_iff, mem_singleton]
    exact and_comm
  · simp only [(fields _).2] at le ⊢
    exact Nat.sub_add_cancel le

theorem removeCommands_drops : ∀ {cs : List Cmd} {p : IndexedPool Cmd A Hash R},
    p.updateRemoveAllByFeeAndHashAndExpiration cs = .ok p' → Drops p p' cs
  | [], p, run => by
    cases run
    exact .refl _
  | c :: cs, p, run => by
    obtain ⟨p₁, first, rest⟩ := bind_eq_ok.1 run
    exact (removeCommand_drops first).trans (removeCommands_drops rest)

variable {dropped : List Cmd}

theorem removeWithDependentsExnImpl_updates {b b' : SenderState Cmd A} {us us' : List (Update Cmd)}
    (run : removeWithDependentsExnImpl c b us = .ok (b', us', dropped)) :
    b'.sender = b.sender ∧ (stateQueue b'.state).length + dropped.length = (stateQueue b.state).length ∧
      (us' = us ++ [.removeAllByFeeAndHashAndExpiration dropped] ∨
        us' = us ++ [.removeAllByFeeAndHashAndExpiration dropped, .removeFromApplicableByFee c]) := by
  obtain ⟨⟨q, r⟩, hstate, run⟩ := bind_eq_ok.1 run
  obtain ⟨-, -, run⟩ := bind_eq_ok.1 run
  obtain ⟨i, -, run⟩ := bind_eq_ok.1 run
  obtain ⟨-, -, run⟩ := bind_eq_ok.1 run
  obtain ⟨removed, -, run⟩ := bind_eq_ok.1 run
  obtain ⟨left, -, run⟩ := bind_eq_ok.1 run
  have lengths : (q.take i).length + (q.drop i).length = q.length := by
    rw [← length_append, take_append_drop]
  rw [okOr_eq_ok.1 hstate]
  obtain ⟨added, hadded, updates⟩ : ∃ added, us ++ [Update.removeAllByFeeAndHashAndExpiration (q.drop i)] ++
      (if i = 0 then [Update.removeFromApplicableByFee c] else []) = added ∧
      (added = us ++ [.removeAllByFeeAndHashAndExpiration (q.drop i)] ∨
        added = us ++ [.removeAllByFeeAndHashAndExpiration (q.drop i), .removeFromApplicableByFee c]) := by
    by_cases zero : i = 0
    · exact ⟨_, rfl, .inr (by simp [zero])⟩
    · exact ⟨_, rfl, .inl (by simp [zero])⟩
  rw [hadded] at run
  split at run
  · cases run
    exact ⟨rfl, lengths, updates⟩
  · next empty =>
    obtain ⟨-, -, run⟩ := bind_eq_ok.1 run
    cases run
    rw [not_not.1 empty] at lengths
    exact ⟨rfl, lengths, updates⟩

theorem removeWithDependentsExn_drops (run : p.removeWithDependentsExn c = .ok (p', dropped)) :
    Drops p p' dropped := by
  obtain ⟨⟨b, us, ds⟩, impl, run⟩ := bind_eq_ok.1 run
  obtain ⟨p₁, apply, run⟩ := bind_eq_ok.1 run
  cases run
  have start : Drops p (p.setSender b) [] :=
    ⟨fun d => by rw [member_setSender]; simp, by rw [setSender_size]; rfl⟩
  obtain ⟨-, -, rfl | rfl⟩ := removeWithDependentsExnImpl_updates impl
  · obtain ⟨p₂, removed, rest⟩ := bind_eq_ok.1 apply
    cases rest
    exact start.trans (removeCommands_drops removed)
  · obtain ⟨p₂, removed, rest⟩ := bind_eq_ok.1 apply
    cases rest
    obtain ⟨member, size⟩ := start.trans (removeCommands_drops removed)
    exact ⟨member, size⟩

variable {s s' : IndexedPool Cmd A Hash R × List Cmd}

theorem removeIfMember_drops (run : removeIfMember s c = .ok s') :
    ∃ ds, s'.2 = s.2 ++ ds ∧ Drops s.1 s'.1 ds := by
  unfold removeIfMember at run
  split at run
  · obtain ⟨⟨p₁, ds⟩, first, rest⟩ := bind_eq_ok.1 run
    cases rest
    exact ⟨ds, rfl, removeWithDependentsExn_drops first⟩
  · cases run
    exact ⟨[], by simp, .refl _⟩

theorem foldlM_drops {α : Type}
    {f : IndexedPool Cmd A Hash R × List Cmd → α → Except Stop (IndexedPool Cmd A Hash R × List Cmd)}
    (round : ∀ s a s', f s a = .ok s' → ∃ ds, s'.2 = s.2 ++ ds ∧ Drops s.1 s'.1 ds) {order : List α}
    (run : order.foldlM f (p, []) = .ok (p', dropped)) : Drops p p' dropped := by
  have all : Drops p (p', dropped).1 (p', dropped).2 := by
    refine foldlM_induction (P := fun s => Drops p s.1 s.2) (fun a _ s s' before step => ?_) (.refl p) run
    obtain ⟨ds, reported, drops⟩ := round s a s' step
    exact reported ▸ before.trans drops
  exact all

theorem removeExpired_drops {order : List Cmd} (run : p.removeExpired order = .ok (p', dropped)) :
    Drops p p' dropped :=
  foldlM_drops (fun _ _ _ => removeIfMember_drops) run

theorem removeLowestFee_drops (run : p.removeLowestFee = .ok (p', dropped)) : Drops p p' dropped := by
  unfold removeLowestFee at run
  split at run
  · cases run
    exact .refl _
  · obtain ⟨c, -, run⟩ := bind_eq_ok.1 run
    exact removeWithDependentsExn_drops run

theorem retainQueue_drops (sender : A) (first : Cmd) (a b keep : List Cmd) (r : ℕ) :
    Drops p (p.retainQueue sender first a b keep r) [] := by
  have same : ∀ q : IndexedPool Cmd A Hash R, q.allByHash = p.allByHash → q.size = p.size →
      Drops p q [] := fun q byHash size =>
    ⟨fun d => by unfold member; rw [byHash]; simp, by simp [size]⟩
  unfold retainQueue
  split
  · exact same _ rfl rfl
  · split
    · exact same _ rfl rfl
    · split <;> exact same _ rfl rfl

variable {getAccount : A → Option AccountView}

theorem revalidateStep_drops {requires : A → Bool} {e : Sigma fun _ : A => List Cmd × ℕ}
    (run : revalidateStep requires getAccount s e = .ok s') : ∃ ds, s'.2 = s.2 ++ ds ∧ Drops s.1 s'.1 ds := by
  unfold revalidateStep at run
  split at run
  · obtain ⟨account, -, run⟩ := bind_eq_ok.1 run
    obtain ⟨⟨p₁, ds⟩, one, run⟩ := bind_eq_ok.1 run
    cases run
    refine ⟨ds, rfl, ?_⟩
    obtain ⟨first, -, one⟩ := bind_eq_ok.1 one
    split at one
    · exact removeWithDependentsExn_drops one
    · obtain ⟨r, -, one⟩ := bind_eq_ok.1 one
      obtain ⟨⟨keep, r', b⟩, -, one⟩ := bind_eq_ok.1 one
      obtain ⟨p₂, removed, one⟩ := bind_eq_ok.1 one
      cases one
      exact (retainQueue_drops ..).trans (removeCommands_drops removed)
  · cases run
    exact ⟨[], by simp, .refl _⟩

theorem revalidate_drops {requires : A → Bool} {order : List (Sigma fun _ : A => List Cmd × ℕ)}
    (run : revalidate requires getAccount order p = .ok (p', dropped)) : Drops p p' dropped :=
  foldlM_drops (fun _ _ _ => revalidateStep_drops) run

/-! ## Adding from the network -/

def Deep (e : Stop) : Prop := e ≠ .panic .recursionLimit

theorem chargeDropped_ends : ∀ (cs : List Cmd) (increment : ℕ),
    Ends (chargeDropped cs increment) (fun _ => True) Deep
  | [], _ => trivial
  | _ :: cs, _ => .checkedSub (by simp [Deep]) fun _ => chargeDropped_ends cs _

theorem currencyToRemove_ends (cs : List Cmd) : Ends (currencyToRemove cs) (fun _ => True) Deep := by
  refine Ends.foldlM (fun acc c => ?_) cs 0
  refine .okOr (by simp [Deep]) fun consumed _ => ?_
  cases checkedAdd consumed acc with
  | none => simp [Ends, okOr, Deep]
  | some _ => trivial

theorem removeWithDependentsExnImpl_ends (c : Cmd) (b : SenderState Cmd A) (us : List (Update Cmd)) :
    Ends (removeWithDependentsExnImpl c b us) (fun _ => True) Deep := by
  refine .okOr (by simp [Deep]) fun e _ => .ensure (by simp [Deep]) fun _ =>
    .okOr (by simp [Deep]) fun i _ => .ensure (by simp [Deep]) fun _ =>
    (currencyToRemove_ends _).bind fun removed _ => .checkedSub (by simp [Deep]) fun _ => ?_
  dsimp only
  split
  · trivial
  · exact .ensure (by simp [Deep]) fun _ => trivial

/-- The updates that a successful addition hands over: the command is added, and after it
    only other commands are. -/
def Enqueues (us : List (Update Cmd)) (c : Cmd)
    (result : SenderState Cmd A × List (Update Cmd) × Cmd × List Cmd) : Prop :=
  result.1.sender = b.sender ∧ (stateQueue result.1.state).length ≤ (stateQueue b.state).length + 1 ∧
    ∃ before flag after, result.2.1 = us ++ before ++ [.add c flag] ++ after ∧
      (∀ u ∈ after, ∃ d f, u = .add d f) ∧ (result.2.2.2 = [] → before = [] ∧ after = [])

/-- The loop that adds commands again, where `add` is known for queues shorter than `bound`. -/
theorem readdTail_ends (bound : ℕ) {add : Cmd → ℕ → SenderState Cmd A →
      Except Stop (SenderState Cmd A × List (Update Cmd) × Cmd × List Cmd)}
    (known : ∀ c nonce b, (stateQueue b.state).length < bound → Ends (add c nonce b) (Enqueues b [] c) Deep) :
    ∀ (tail : List Cmd) (nonce increment : ℕ) (b : SenderState Cmd A) (us : List (Update Cmd)),
      (stateQueue b.state).length + tail.length ≤ bound →
      Ends (readdTail add tail nonce increment b us) (fun result => result.1.sender = b.sender ∧
        (stateQueue result.1.state).length ≤ (stateQueue b.state).length + tail.length ∧
        ∃ after, result.2.1 = us ++ after ∧ ∀ u ∈ after, ∃ d f, u = .add d f) Deep
  | [], _, _, b, us, _ => ⟨rfl, Nat.le_refl _, [], by simp, by simp⟩
  | c :: tail, nonce, increment, b, us, short => by
    rw [length_cons] at short
    have one := known c (succNonce nonce) b (by omega)
    unfold readdTail
    dsimp only
    match hx : add c (succNonce nonce) b with
    | .ok (b₁, us₁, added, dropped) =>
      obtain ⟨sender, length, before, flag, after, rfl, -, appended⟩ := one.result hx
      refine .ensure (by simp [Deep]) fun none => ?_
      obtain ⟨rfl, rfl⟩ := appended none
      dsimp only at sender length
      refine (readdTail_ends bound known tail (succNonce nonce) increment b₁ _ (by omega)).imp ?_
      rintro result ⟨sender', length', after', updates, adds⟩
      refine ⟨sender'.trans sender, by rw [length_cons]; omega, .add c flag :: after', ?_, ?_⟩
      · simp [updates]
      · intro u hu
        rcases mem_cons.1 hu with rfl | hu
        · exact ⟨c, flag, rfl⟩
        · exact adds u hu
    | .error (.err e) =>
      refine (chargeDropped_ends (c :: tail) increment).bind fun increment' _ => ?_
      exact ⟨rfl, Nat.le_add_right _ _, [], by simp, by simp⟩
    | .error (.panic e) =>
      rw [hx] at one
      exact one

/-- **A command from the network is enqueued**, and the recursion goes into shorter queues. -/
theorem addFromGossipExnImpl_ends {slotTxEnd : Option ℕ} {slot current balance : ℕ} :
    ∀ (depth : ℕ) (c : Cmd) (nonce : ℕ) (b : SenderState Cmd A) (us : List (Update Cmd)),
      (stateQueue b.state).length < depth →
      Ends (addFromGossipExnImpl slotTxEnd slot current balance depth c nonce b us) (Enqueues b us c) Deep
  | 0, _, _, _, _, short => absurd short (Nat.not_lt_zero _)
  | depth + 1, c, nonce, ⟨s, none⟩, us, _ => by
    refine .ensure (by simp [Deep]) fun _ => .ensure (by simp [Deep]) fun _ =>
      .okOr (by simp [Deep]) fun consumed _ => .ensure (by simp [Deep]) fun _ =>
      .ensure (by simp [Deep]) fun _ => ?_
    exact ⟨rfl, Nat.le_refl _, [], true, [], by simp, by simp, by simp⟩
  | depth + 1, c, nonce, ⟨s, some (q, r)⟩, us, short => by
    have known : ∀ c nonce b us, (stateQueue b.state).length < depth →
        Ends (addFromGossipExnImpl slotTxEnd slot current balance depth c nonce b us) (Enqueues b us c) Deep :=
      addFromGossipExnImpl_ends depth
    rw [stateQueue_some] at short
    refine .ensure (by simp [Deep]) fun _ => .ensure (by simp [Deep]) fun _ =>
      .okOr (by simp [Deep]) fun consumed _ => .ensure (by simp [Deep]) fun _ =>
      .okOr (by simp [Deep]) fun first _ => .okOr (by simp [Deep]) fun last _ => ?_
    dsimp only
    split
    · refine .okOr (by simp [Deep]) fun r' _ => .ensure (by simp [Deep]) fun _ => ?_
      exact ⟨rfl, by simp, [], false, [], by simp, by simp, by simp⟩
    split
    swap
    · exact .error (by simp [Deep])
    refine .ensure (by simp [Deep]) fun _ => .okOr (by simp [Deep]) fun i _ =>
      .okOr (by simp [Deep]) fun toDrop head => .ensure (by simp [Deep]) fun _ =>
      .ensure (by simp [Deep]) fun _ => ?_
    refine ((removeWithDependentsExnImpl_ends toDrop ⟨s, some (q, r)⟩ us).of_ok fun _ run =>
      removeWithDependentsExnImpl_updates run).bind ?_
    rintro ⟨b₁, us₁, dropped⟩ ⟨sender₁, length₁, updates₁⟩
    refine .ensure (by simp [Deep]) fun same => ?_
    dsimp only at sender₁ length₁ updates₁ same
    have pos : 0 < dropped.length := by
      rw [← same, length_pos_iff]
      rintro empty
      rw [empty] at head
      cases head
    rw [stateQueue_some] at length₁
    refine (known c nonce b₁ us₁ (by omega)).bind ?_
    rintro ⟨b₂, us₂, added, addDropped⟩ ⟨sender₂, length₂, before, flag, after, rfl, -, appended⟩
    refine .ensure (by simp [Deep]) fun none => ?_
    obtain ⟨rfl, rfl⟩ := appended none
    refine .okOr (by simp [Deep]) fun dropHead _ => .checkedSub (by simp [Deep]) fun _ => ?_
    dsimp only at sender₂ length₂
    refine (readdTail_ends depth (fun c nonce b short => known c nonce b [] short) dropped.tail
      nonce _ b₂ _ (by rw [length_tail]; omega)).bind ?_
    rintro ⟨b₃, us₃, increment, rest⟩ ⟨sender₃, length₃, after, updates₃, adds⟩
    refine .ensure (by simp [Deep]) fun _ => ?_
    dsimp only at sender₃ length₃ updates₃
    rw [length_tail] at length₃
    obtain ⟨removal, rfl⟩ : ∃ removal, us₁ = us ++ removal := by
      rcases updates₁ with rfl | rfl
      · exact ⟨_, rfl⟩
      · exact ⟨_, rfl⟩
    refine ⟨sender₃.trans (sender₂.trans sender₁), ?_, removal, flag, after, ?_, adds, by simp⟩
    · simp only [stateQueue_some]
      omega
    · simp [updates₃]

theorem applyUpdates_adds : ∀ {us : List (Update Cmd)} {p : IndexedPool Cmd A Hash R},
    (∀ u ∈ us, ∃ d f, u = .add d f) → p.applyUpdates us = .ok p' → p.member c → p'.member c
  | [], p, _, run, mem => by
    cases run
    exact mem
  | u :: us, p, adds, run, mem => by
    rw [forall_mem_cons] at adds
    obtain ⟨⟨d, flag, rfl⟩, adds⟩ := adds
    obtain ⟨p₁, first, rest⟩ := bind_eq_ok.1 run
    cases first
    refine applyUpdates_adds adds rest ?_
    unfold updateAdd
    rw [member_insertCommand]
    refine .inr ?_
    split <;> exact mem

theorem addFromGossipExn_member {slot current nonce balance : ℕ} {added : Cmd}
    (run : p.addFromGossipExn slot current c nonce balance = .ok (p', added, dropped)) : p'.member c := by
  obtain ⟨⟨b, us, _, _⟩, impl, run⟩ := bind_eq_ok.1 run
  obtain ⟨p₁, apply, run⟩ := bind_eq_ok.1 run
  cases run
  obtain ⟨-, -, before, flag, after, updates, adds, -⟩ :=
    (addFromGossipExnImpl_ends _ c nonce _ [] (by
      cases p.allBySender.lookup (feePayer c) with
      | none => simp
      | some e => simp [stateQueue])).result impl
  dsimp only at apply updates
  rw [updates, applyUpdates_append] at apply
  obtain ⟨p₂, first, rest⟩ := bind_eq_ok.1 apply
  rw [applyUpdates_append] at first
  obtain ⟨p₃, -, add⟩ := bind_eq_ok.1 first
  cases add
  refine applyUpdates_adds adds rest ?_
  unfold updateAdd
  rw [member_insertCommand]
  exact .inl rfl

/-- **Adding a gossiped command ends, whatever the pool**: the recursion goes no deeper than the
    queue of its sender, and what is accepted is in the pool. -/
theorem addFromGossipExn_ends (p : IndexedPool Cmd A Hash R) (slot current nonce balance : ℕ) (c : Cmd) :
    Ends (p.addFromGossipExn slot current c nonce balance) (fun r => r.1.member c) Deep := by
  have remove (p : IndexedPool Cmd A Hash R) (d : Cmd) : Ends (p.removeCommand d) (fun _ => True) Deep :=
    .checkedSub (by simp [Deep]) fun _ => trivial
  have update (p : IndexedPool Cmd A Hash R) (u : Update Cmd) : Ends (p.applyUpdate u) (fun _ => True) Deep := by
    cases u with
    | removeAllByFeeAndHashAndExpiration cs => exact .foldlM remove cs p
    | _ => trivial
  refine .of_ok (.bind (addFromGossipExnImpl_ends _ c nonce _ [] ?_) fun r _ =>
    .bind (.foldlM update r.2.1 _) fun _ _ => trivial) fun _ run => addFromGossipExn_member run
  cases p.allBySender.lookup (feePayer c) with
  | none => simp
  | some e => simp [stateQueue]

end MinaRust.TransactionPool.IndexedPool
