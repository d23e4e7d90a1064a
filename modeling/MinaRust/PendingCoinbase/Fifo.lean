/-
  The pending coinbases as a queue: whatever stacks are begun, overwritten and removed, also
  after the ids have gone round, they are removed in the order in which they were begun, each
  with what was written last.
-/
import MinaRust.PendingCoinbase.Agreement

set_option linter.dupNamespace false

namespace MinaRust.PendingCoinbase

open List Nat Ledger Table

variable {Pk F : Type}

/-- The calls on the collection; a stack that is not new overwrites the last one. -/
inductive Call (F : Type)
  | updateCoinbaseStack (stack : Stack F) (isNewStack : Bool)
  | removeCoinbaseStack
  | merkleRoot

/-- One call, with the stacks removed so far. -/
def PendingCoinbase.call [DecidableEq F] (H : Hasher Pk F) (s : PendingCoinbase F × List (Stack F)) :
    Call F → Except Panic (PendingCoinbase F × List (Stack F))
  | .updateCoinbaseStack stack isNewStack => do
    .ok (← s.1.updateCoinbaseStack pendingCoinbaseDepth stack isNewStack, s.2)
  | .removeCoinbaseStack => do
    match ← s.1.removeCoinbaseStack H pendingCoinbaseDepth with
    | none => .ok s
    | some (stack, pc) => .ok (pc, s.2 ++ [stack])
  | .merkleRoot => do .ok ((← s.1.merkleRoot H).2, s.2)

/-- The same on a queue. -/
def queueCall (q : List (Stack F) × List (Stack F)) : Call F → List (Stack F) × List (Stack F)
  | .updateCoinbaseStack stack isNewStack => ((if isNewStack then q.1 else q.1.dropLast) ++ [stack], q.2)
  | .removeCoinbaseStack => (q.1.tail, q.2 ++ q.1.head?.toList)
  | .merkleRoot => q

/-- There is room for a new stack, or a stack to overwrite. -/
def Call.Fits (q : List (Stack F)) : Call F → Prop
  | .updateCoinbaseStack _ isNewStack => if isNewStack then q.length < 32 else q ≠ []
  | _ => True

def Fits : List (Stack F) × List (Stack F) → List (Call F) → Prop
  | _, [] => True
  | q, c :: calls => c.Fits q.1 ∧ Fits (queueCall q c) calls

/-- The queue in the ring of ids, from `start` on. -/
def row (H : Hasher Pk F) (start : ℕ) (q : List (Stack F)) : Table F where
  stackAt k := q.getD ((k + 32 - start % 32) % 32) (.empty H)
  posList := positions start q.length
  newPos := (start + q.length) % 32
  posList_lt k hk := by
    obtain ⟨i, -, rfl⟩ := mem_positions.1 hk
    exact mod_lt _ (by decide)
  newPos_lt := mod_lt _ (by decide)

variable {H : Hasher Pk F} {pc : PendingCoinbase F} {t t' : Table F} {start : ℕ} {q : List (Stack F)}

theorem Refines.congr (r : Refines H pc t) (stackAt : ∀ k < 32, t.stackAt k = t'.stackAt k)
    (posList : t.posList = t'.posList) (newPos : t.newPos = t'.newPos) : Refines H pc t' :=
  ⟨⟨r.holds.sound, r.holds.index, fun k hk => by rw [r.holds.stack k hk, stackAt k hk]⟩,
    r.posList.trans posList, r.newPos.trans newPos⟩

theorem row_put (stack : Stack F) {n : ℕ} (hn : n < 32) (len : n ≤ q.length ∧ q.length ≤ n + 1) {k : ℕ} (hk : k < 32) :
    ((row H start q).put ((start + n) % 32) stack).stackAt k = (row H start (q.take n ++ [stack])).stackAt k := by
  have here : k = (start + n) % 32 ↔ (k + 32 - start % 32) % 32 = n := by omega
  simp only [put, row, Function.update_apply, here, getD_eq_getElem?_getD]
  grind

section Calls
variable [DecidableEq F] (r : Refines H pc (row H start q)) (len : q.length ≤ 32)

include r len

theorem Refines.write (stack : Stack F) (isNewStack : Bool) (fits : if isNewStack then q.length < 32 else q ≠ []) :
    ∃ pc', pc.updateCoinbaseStack pendingCoinbaseDepth stack isNewStack = .ok pc' ∧
      Refines H pc' (row H start ((if isNewStack then q else q.dropLast) ++ [stack])) := by
  obtain ⟨pc', run, r'⟩ := r.updateCoinbaseStack stack isNewStack
  refine ⟨pc', run, ?_⟩
  cases isNewStack with
  | true =>
    have room : q.length < 32 := fits
    refine r'.congr (fun k hk => ?_) ?_ ?_
    · exact (row_put stack room ⟨le_rfl, le_succ _⟩ hk).trans (by rw [take_length]; rfl)
    · simp [advance, row, positions, put, range_succ]
    · simp [advance, row, put, Table.next]
      omega
  | false =>
    have pos := length_pos_iff.2 (show q ≠ [] from fits)
    have id : (row H start q).latestId false = (start + (q.length - 1)) % 32 := by
      simp [latestId, currentId, row, positions_getLast pos]
    have length : (q.dropLast ++ [stack]).length = q.length := by simp; omega
    rw [id] at r'
    refine r'.congr (fun k hk => ?_) (by simp [advance, row, put, length]) (by simp [advance, row, put, length])
    rw [if_neg Bool.false_ne_true, dropLast_eq_take]
    exact row_put stack (by omega) (by omega) hk

theorem Refines.remove (first : q ≠ []) : ∃ pc',
    pc.removeCoinbaseStack H pendingCoinbaseDepth = .ok (some (q.head first, pc')) ∧
      Refines H pc' (row H (start + 1) q.tail) := by
  obtain ⟨x, q, rfl⟩ := exists_cons_of_ne_nil first
  have ids : (row H start (x :: q)).posList = start % 32 :: positions (start + 1) q.length := by
    simp [row, positions, range_succ_eq_map, Function.comp_def, Nat.add_assoc, Nat.add_comm 1]
  have oldest : (row H start (x :: q)).oldestId = start % 32 := by
    rw [oldestId, ids]
    rfl
  obtain ⟨pc', run, r'⟩ := r.removeCoinbaseStack (by rw [ids]; exact cons_ne_nil _ _)
  rw [oldest] at run r'
  refine ⟨pc', run.trans ?_, r'.congr (fun k hk => ?_) (congrArg List.tail ids) ?_⟩
  · simp [row]
  · have here : k = start % 32 ↔ (k + 32 - (start + 1) % 32) % 32 = 31 := by omega
    have there : k ≠ start % 32 → (k + 32 - start % 32) % 32 = (k + 32 - (start + 1) % 32) % 32 + 1 := by omega
    rw [length_cons] at len
    simp only [put, dropOldest, row, Function.update_apply, getD_eq_getElem?_getD, tail_cons]
    grind
  · simp [row, put, dropOldest]
    omega

end Calls

variable [DecidableEq F]

/-- The collection is the queue `q`. -/
def IsQueue (H : Hasher Pk F) (pc : PendingCoinbase F) (q : List (Stack F)) : Prop :=
  q.length ≤ 32 ∧ ∃ start, Refines H pc (row H start q)

theorem IsQueue.call {q : List (Stack F) × List (Stack F)} (h : IsQueue H pc q.1) {c : Call F} (fits : c.Fits q.1) :
    ∃ pc', PendingCoinbase.call H (pc, q.2) c = .ok (pc', (queueCall q c).2) ∧ IsQueue H pc' (queueCall q c).1 := by
  obtain ⟨len, start, r⟩ := h
  cases c with
  | updateCoinbaseStack stack isNewStack =>
    obtain ⟨pc', run, r'⟩ := r.write len stack isNewStack fits
    refine ⟨pc', by simp only [PendingCoinbase.call, run, ok_bind]; rfl, ?_, start, r'⟩
    cases isNewStack
    · simp only [queueCall, Bool.false_eq_true, if_false, length_append, length_dropLast, length_singleton]
      omega
    · have room : q.1.length < 32 := fits
      simpa [queueCall] using room
  | removeCoinbaseStack =>
    by_cases first : q.1 = []
    · refine ⟨pc, ?_, by simpa [queueCall, first] using first ▸ ⟨len, start, r⟩⟩
      simp [PendingCoinbase.call, r.removeCoinbaseStack_nil (by simp [row, positions, first]), queueCall, first]
    · obtain ⟨pc', run, r'⟩ := r.remove len first
      refine ⟨pc', ?_, by simp [queueCall]; omega, start + 1, r'⟩
      simp [PendingCoinbase.call, run, queueCall, head?_eq_some_head first]
  | merkleRoot =>
    obtain ⟨pc', run, r'⟩ := r.merkleRoot
    exact ⟨pc', by simp only [PendingCoinbase.call, run, ok_bind]; rfl, len, start, r'⟩

theorem IsQueue.run : ∀ {calls : List (Call F)} {pc : PendingCoinbase F} {q : List (Stack F) × List (Stack F)},
    IsQueue H pc q.1 → Fits q calls → ∃ pc', calls.foldlM (PendingCoinbase.call H) (pc, q.2) =
        .ok (pc', (calls.foldl queueCall q).2) ∧ IsQueue H pc' (calls.foldl queueCall q).1
  | [], pc, q, h, _ => ⟨pc, rfl, h⟩
  | c :: calls, pc, q, h, ⟨fits, rest⟩ => by
    obtain ⟨pc₁, step, h₁⟩ := h.call fits
    obtain ⟨pc', run, h'⟩ := IsQueue.run h₁ rest
    exact ⟨pc', by rw [foldlM_cons, step, ok_bind, run]; rfl, h'⟩

end MinaRust.PendingCoinbase
