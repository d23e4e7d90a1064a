/-
  The queue of one sender: consecutive nonces, and the currency it reserves.

  Nonces are 32 bits wide and wrap, so the nonces of a queue are told apart by their
  positions as long as the queue has at most `2 ^ 32` commands.
-/
import MinaRust.TransactionPool.Command

set_option linter.unusedSectionVars false

namespace MinaRust.TransactionPool

open List Nat

variable {Cmd A Hash R : Type} [PoolCommand Cmd A Hash R]

def cost (c : Cmd) : ℕ := fee c + amount c

theorem currencyConsumed_eq_some {c : Cmd} {n : ℕ} :
    currencyConsumed c = some n ↔ cost c < 2 ^ 64 ∧ cost c = n := checkedAdd_eq_some

def Follows (a b : Cmd) : Prop := applicableAtNonce b = expectedTargetNonce a

def totalCost (q : List Cmd) : ℕ := (q.map cost).sum

@[simp] theorem totalCost_append (q q' : List Cmd) : totalCost (q ++ q') = totalCost q + totalCost q' := by
  simp [totalCost]

@[simp] theorem totalCost_cons (c : Cmd) (q : List Cmd) : totalCost (c :: q) = cost c + totalCost q := by
  simp [totalCost]

@[simp] theorem totalCost_nil : totalCost ([] : List Cmd) = 0 := rfl

/-- **A queue in order**: not empty, nonces in sequence, one sender, and the reserved
    currency is what its commands consume. -/
structure QueueOk (s : A) (q : List Cmd) (reserved : ℕ) : Prop where
  nonempty : q ≠ []
  chain : q.IsChain Follows
  sender : ∀ c ∈ q, feePayer c = s
  reserved_eq : reserved = totalCost q
  bound : reserved < 2 ^ 64
  short : q.length ≤ 2 ^ 32

theorem nonce_getElem {q : List Cmd} (chain : q.IsChain Follows) : ∀ (i : ℕ) (hi : i < q.length),
    applicableAtNonce (q.get ⟨i, hi⟩) = (applicableAtNonce (q.get ⟨0, zero_lt_of_lt hi⟩) + i) % 2 ^ 32
  | 0, _ => (mod_eq_of_lt (PoolCommand.applicableAtNonce_lt _)).symm
  | i + 1, hi => by
    have before := nonce_getElem chain i (lt_of_succ_lt hi)
    have next : Follows (q.get ⟨i, lt_of_succ_lt hi⟩) (q.get ⟨i + 1, hi⟩) :=
      isChain_iff_getElem.1 chain i hi
    rw [Follows, expectedTargetNonce, succNonce, before] at next
    rw [next]
    omega

section
variable {q : List Cmd} (chain : q.IsChain Follows)
include chain

theorem nonce_from_head {first : Cmd} (hfirst : q.head? = some first) {i : ℕ}
    (hi : i < q.length) : applicableAtNonce (q.get ⟨i, hi⟩) = (applicableAtNonce first + i) % 2 ^ 32 := by
  have at_first : q.get ⟨0, zero_lt_of_lt hi⟩ = first := by
    cases q with
    | nil => cases hfirst
    | cons d q => cases hfirst; rfl
  rw [nonce_getElem chain i hi, at_first]

theorem target_getLast {first last : Cmd} (hfirst : q.head? = some first)
    (hlast : q.getLast? = some last) :
    expectedTargetNonce last = (applicableAtNonce first + q.length) % 2 ^ 32 := by
  have pos : 0 < q.length := by
    cases q with
    | nil => cases hfirst
    | cons d q => simp
  have at_last : q.get ⟨q.length - 1, by omega⟩ = last := by
    rw [List.getLast?_eq_getElem?, List.getElem?_eq_getElem (by omega), Option.some.injEq] at hlast
    exact hlast
  have nonce := nonce_from_head chain hfirst (show q.length - 1 < q.length by omega)
  rw [at_last] at nonce
  rw [expectedTargetNonce, succNonce, nonce]
  omega

theorem chain_replace {i : ℕ} (hi : i < q.length) {c : Cmd}
    (same : applicableAtNonce (q.get ⟨i, hi⟩) = applicableAtNonce c) :
    (q.take i ++ c :: q.drop (i + 1)).IsChain Follows := by
  have parts : q = q.take i ++ q.get ⟨i, hi⟩ :: q.drop (i + 1) := by
    rw [get_eq_getElem, ← drop_eq_getElem_cons hi, take_append_drop]
  rw [parts, isChain_append, isChain_cons] at chain
  obtain ⟨front, ⟨next, back⟩, join⟩ := chain
  have target : expectedTargetNonce (q.get ⟨i, hi⟩) = expectedTargetNonce c := by
    rw [expectedTargetNonce, same, expectedTargetNonce]
  rw [isChain_append, isChain_cons]
  refine ⟨front, ⟨fun d hd => (next d hd).trans target, back⟩, fun a ha b hb => ?_⟩
  cases hb
  exact same.symm.trans (join a ha _ rfl)

theorem eq_of_nonce_eq (short : q.length ≤ 2 ^ 32) {i j : ℕ} (hi : i < q.length)
    (hj : j < q.length) (eq : applicableAtNonce (q.get ⟨i, hi⟩) = applicableAtNonce (q.get ⟨j, hj⟩)) :
    i = j := by
  rw [nonce_getElem chain i hi, nonce_getElem chain j hj] at eq
  omega

theorem nodup_of_chain (short : q.length ≤ 2 ^ 32) : q.Nodup := by
  rw [nodup_iff_injective_get]
  rintro ⟨i, hi⟩ ⟨j, hj⟩ eq
  exact Fin.ext (eq_of_nonce_eq chain short hi hj (congrArg applicableAtNonce eq))

theorem findIdx_nonce (short : q.length ≤ 2 ^ 32) {c : Cmd} (mem : c ∈ q) :
    ∃ (i : ℕ) (hi : i < q.length), q.get ⟨i, hi⟩ = c ∧
      q.findIdx? (fun d => applicableAtNonce d = applicableAtNonce c) = some i := by
  obtain ⟨⟨i, hi⟩, rfl⟩ := mem_iff_get.1 mem
  refine ⟨i, hi, rfl, List.findIdx?_eq_some_iff_getElem.2 ⟨hi, by simp, fun j hj found => ?_⟩⟩
  have same := eq_of_nonce_eq chain short (hj.trans hi) hi (by simpa using found)
  omega

end

variable {s : A} {q q' : List Cmd} {r : ℕ} {c : Cmd}

theorem QueueOk.nodup (ok : QueueOk s q r) : q.Nodup := nodup_of_chain ok.chain ok.short

theorem QueueOk.head (ok : QueueOk s q r) : ∃ first, q.head? = some first := by
  cases q with
  | nil => exact absurd rfl ok.nonempty
  | cons d q => exact ⟨d, rfl⟩

theorem QueueOk.last (ok : QueueOk s q r) : ∃ last, q.getLast? = some last :=
  ⟨q.getLast ok.nonempty, List.getLast?_eq_getLast_of_ne_nil ok.nonempty⟩

theorem QueueOk.singleton (sender : feePayer c = s) (bound : cost c < 2 ^ 64) : QueueOk s [c] (cost c) where
  nonempty := by simp
  chain := .singleton c
  sender := by simpa using sender
  reserved_eq := by simp
  bound := bound
  short := by simp

theorem QueueOk.cons (ok : QueueOk s q r) (sender : feePayer c = s)
    (follows : ∀ d ∈ q.head?, Follows c d) (bound : r + cost c < 2 ^ 64) (short : q.length < 2 ^ 32) :
    QueueOk s (c :: q) (r + cost c) where
  nonempty := by simp
  chain := isChain_cons.2 ⟨follows, ok.chain⟩
  sender := forall_mem_cons.2 ⟨sender, ok.sender⟩
  reserved_eq := by rw [totalCost_cons, ok.reserved_eq, add_comm]
  bound := bound
  short := short

theorem QueueOk.snoc (ok : QueueOk s q r) (sender : feePayer c = s)
    (follows : ∀ d ∈ q.getLast?, Follows d c) (bound : cost c + r < 2 ^ 64) (short : q.length < 2 ^ 32) :
    QueueOk s (q ++ [c]) (cost c + r) where
  nonempty := by simp
  chain := isChain_append.2 ⟨ok.chain, .singleton c, fun d hd e he => by
    cases he
    exact follows d hd⟩
  sender := by
    intro d hd
    rcases mem_append.1 hd with hd | hd
    · exact ok.sender d hd
    · exact mem_singleton.1 hd ▸ sender
  reserved_eq := by simp [ok.reserved_eq, add_comm]
  bound := bound
  short := by
    rw [length_append, length_singleton]
    omega

theorem QueueOk.totalCost_le (ok : QueueOk s q r) (part : q' <:+: q) : totalCost q' ≤ r := by
  obtain ⟨a, b, rfl⟩ := part
  rw [ok.reserved_eq, totalCost_append, totalCost_append]
  omega

theorem QueueOk.part (ok : QueueOk s q r) (part : q' <:+: q) (nonempty : q' ≠ []) :
    QueueOk s q' (totalCost q') where
  nonempty := nonempty
  chain := ok.chain.infix part
  sender c hc := ok.sender c (part.subset hc)
  reserved_eq := rfl
  bound := (ok.totalCost_le part).trans_lt ok.bound
  short := part.length_le.trans ok.short

theorem QueueOk.cost_lt (ok : QueueOk s q r) (mem : c ∈ q) : cost c < 2 ^ 64 := by
  obtain ⟨a, b, rfl⟩ := append_of_mem mem
  have le := ok.totalCost_le (⟨a, b, by simp⟩ : [c] <:+: a ++ c :: b)
  rw [totalCost_cons, totalCost_nil] at le
  exact lt_of_le_of_lt le ok.bound

end MinaRust.TransactionPool
