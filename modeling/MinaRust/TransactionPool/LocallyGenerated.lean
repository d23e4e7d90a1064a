/-
  The tables of locally generated commands follow the pool.

  * `InStep`: every uncommitted local command is in the pool, and no command is in both
    tables.
  * `Stranded`: an uncommitted local command that is not in the pool, and that nothing
    looks at any more.
-/
import Mathlib.Data.List.SplitBy
import MinaRust.TransactionPool.Invariant

set_option linter.unusedSectionVars false
set_option linter.dupNamespace false

namespace MinaRust.TransactionPool.TransactionPool

open List AList

open IndexedPool (Drops Holds Valid)

variable {Cmd A Hash R Fp Vk : Type} [PoolCommand Cmd A Hash R]
  [VkCommand Cmd A Fp Vk] [DecidableEq Cmd] [DecidableEq A] [LinearOrder Hash]
  [LinearOrder R] [DecidableEq Fp]
  {t t' : TransactionPool Cmd A Hash R Fp Vk} {c : Cmd} {cs : List Cmd}

/-- **The tables of local commands are in step with the pool.** -/
structure InStep (t : TransactionPool Cmd A Hash R Fp Vk) : Prop where
  member : ∀ c ∈ t.locallyGeneratedUncommitted, t.pool.member c
  apart : ∀ c ∈ t.locallyGeneratedUncommitted, c ∉ t.locallyGeneratedCommitted

/-! ## Single steps -/

def SameTables (t t' : TransactionPool Cmd A Hash R Fp Vk) : Prop :=
  ∃ table, t' = { t with verificationKeyTable := table }

theorem incrementVks_same (run : t.incrementVks cs = .ok t') : SameTables t t' := by
  obtain ⟨⟨table, _⟩, -, done⟩ := bind_eq_ok.1 run
  cases done
  exact ⟨table, rfl⟩

theorem decrementVks_same (run : t.decrementVks cs = .ok t') : SameTables t t' := by
  obtain ⟨⟨table, _⟩, -, done⟩ := bind_eq_ok.1 run
  cases done
  exact ⟨table, rfl⟩

theorem dropUntil_drops {poolMaxSize : ℕ} : ∀ {rounds : ℕ} {p p' : IndexedPool Cmd A Hash R}
    {dropped : List Cmd}, dropUntil poolMaxSize rounds p = .ok (p', dropped) → Drops p p' dropped
  | 0, p, p', dropped, run => by
    cases run
    exact .refl p
  | rounds + 1, p, p', dropped, run => by
    unfold dropUntil at run
    split at run
    · obtain ⟨⟨p₁, ds⟩, lowest, run⟩ := bind_eq_ok.1 run
      obtain ⟨-, -, run⟩ := bind_eq_ok.1 run
      obtain ⟨⟨p₂, rest⟩, later, run⟩ := bind_eq_ok.1 run
      cases run
      exact (IndexedPool.removeLowestFee_drops lowest).trans (dropUntil_drops later)
    · cases run
      exact .refl p

theorem uncommit_apart (apart : ∀ c ∈ t.locallyGeneratedUncommitted, c ∉ t.locallyGeneratedCommitted)
    (cmd : Cmd) :
    ∀ c ∈ (t.uncommit cmd).locallyGeneratedUncommitted, c ∉ (t.uncommit cmd).locallyGeneratedCommitted := by
  unfold uncommit
  split
  · intro c mem
    rw [mem_insert] at mem
    rw [mem_erase, not_and_or, not_not]
    rcases mem with rfl | mem
    · exact .inl rfl
    · exact .inr (apart c mem)
  · exact apart

theorem uncommit_mem {cmd : Cmd} (mem : c ∈ (t.uncommit cmd).locallyGeneratedUncommitted) :
    c = cmd ∨ c ∈ t.locallyGeneratedUncommitted := by
  unfold uncommit at mem
  split at mem
  · exact (mem_insert _).1 mem
  · exact .inr mem

@[simp] theorem uncommit_pool (cmd : Cmd) : (t.uncommit cmd).pool = t.pool := by
  unfold uncommit
  split <;> rfl

@[simp] theorem uncommit_poolMaxSize (cmd : Cmd) : (t.uncommit cmd).poolMaxSize = t.poolMaxSize := by
  unfold uncommit
  split <;> rfl

variable {current slot : ℕ}

theorem backtrackStep_eq {s s' : TransactionPool Cmd A Hash R Fp Vk × List Cmd}
    (run : backtrackStep slot current s c = .ok s') :
    ∃ added pool dropped, s.1.pool.addFromBacktrack slot current c = .ok added ∧
      dropUntilBelowMaxSize s.1.poolMaxSize added = .ok (pool, dropped) ∧
      s' = ({ s.1.uncommit c with pool := pool }, s.2 ++ dropped) := by
  obtain ⟨added, add, run⟩ := bind_eq_ok.1 run
  obtain ⟨⟨pool, dropped⟩, trim, run⟩ := bind_eq_ok.1 run
  cases run
  rw [uncommit_pool] at add
  rw [uncommit_poolMaxSize] at trim
  exact ⟨added, pool, dropped, add, trim, rfl⟩

theorem commitStep_eq (run : t.commitStep c = .ok t') :
    t'.pool = t.pool ∧ (∀ d, d ∈ t'.locallyGeneratedUncommitted ↔ d ∈ t.locallyGeneratedUncommitted ∧ d ≠ c) ∧
      (∀ d, d ∈ t'.locallyGeneratedCommitted ↔
        d ∈ t.locallyGeneratedCommitted ∨ d = c ∧ d ∈ t.locallyGeneratedUncommitted) := by
  obtain ⟨t₁, vks, run⟩ := bind_eq_ok.1 run
  obtain ⟨table, rfl⟩ := decrementVks_same vks
  cases found : t.locallyGeneratedUncommitted.lookup c with
  | none =>
    simp only [found] at run
    cases run
    have absent := lookup_eq_none.1 found
    refine ⟨rfl, fun d => ⟨fun mem => ⟨mem, ?_⟩, And.left⟩, fun d => ⟨.inl, fun h => h.elim id ?_⟩⟩
    · rintro rfl
      exact absent mem
    · rintro ⟨rfl, mem⟩
      exact absurd mem absent
  | some data =>
    simp only [found] at run
    obtain ⟨-, -, run⟩ := bind_eq_ok.1 run
    cases run
    have present : c ∈ t.locallyGeneratedUncommitted := lookup_isSome.1 (by rw [found]; rfl)
    refine ⟨rfl, fun d => ?_, fun d => ?_⟩
    · rw [mem_erase, and_comm]
    · rw [mem_insert]
      constructor
      · rintro (rfl | mem)
        · exact .inr ⟨rfl, present⟩
        · exact .inl mem
      · rintro (mem | ⟨rfl, -⟩)
        · exact .inr mem
        · exact .inl rfl

theorem removeCmd_eq (run : t.removeCmd c = .ok t') :
    t'.pool = t.pool ∧ (∀ d, d ∈ t'.locallyGeneratedUncommitted ↔ d ∈ t.locallyGeneratedUncommitted ∧ d ≠ c) ∧
      t'.locallyGeneratedCommitted = t.locallyGeneratedCommitted := by
  obtain ⟨t₁, vks, run⟩ := bind_eq_ok.1 run
  obtain ⟨table, rfl⟩ := decrementVks_same vks
  obtain ⟨-, -, run⟩ := bind_eq_ok.1 run
  cases run
  exact ⟨rfl, fun d => by rw [mem_erase, and_comm], rfl⟩

variable {uncommitted : A → Option IndexedPool.AccountView}

theorem readdStep_eq (run : t.readdStep slot current uncommitted c = .ok t') :
    t'.locallyGeneratedCommitted = t.locallyGeneratedCommitted ∧
      ((t' = t ∧ c ∈ t.locallyGeneratedCommitted) ∨
      (t'.pool = t.pool ∧ ∀ d, d ∈ t'.locallyGeneratedUncommitted ↔ d ∈ t.locallyGeneratedUncommitted ∧ d ≠ c) ∨
      (t'.locallyGeneratedUncommitted = t.locallyGeneratedUncommitted ∧
        ∃ nonce balance result, t.pool.addFromGossipExn slot current c nonce balance = .ok result ∧
          t'.pool = result.1)) := by
  have gaveUp : t.removeCmd c = .ok t' → t'.locallyGeneratedCommitted = t.locallyGeneratedCommitted ∧
      t'.pool = t.pool ∧ ∀ d, d ∈ t'.locallyGeneratedUncommitted ↔ d ∈ t.locallyGeneratedUncommitted ∧ d ≠ c :=
    fun done => ⟨(removeCmd_eq done).2.2, (removeCmd_eq done).1, (removeCmd_eq done).2.1⟩
  unfold readdStep at run
  split at run
  · next mem =>
    cases run
    exact ⟨rfl, .inl ⟨rfl, mem⟩⟩
  split at run
  · exact ⟨(gaveUp run).1, .inr (.inl (gaveUp run).2)⟩
  split at run
  · exact ⟨(gaveUp run).1, .inr (.inl (gaveUp run).2)⟩
  split at run
  · next pool added dropped accepted =>
    obtain ⟨table, rfl⟩ := incrementVks_same run
    exact ⟨rfl, .inr (.inr ⟨rfl, _, _, _, accepted, rfl⟩)⟩
  · exact ⟨(gaveUp run).1, .inr (.inl (gaveUp run).2)⟩
  · cases run

theorem expire_eq : ∀ {cs : List Cmd} {t : TransactionPool Cmd A Hash R Fp Vk},
    cs.foldlM expireStep t = .ok t' →
    t'.pool = t.pool ∧ (∀ d, d ∈ t'.locallyGeneratedUncommitted ↔ d ∈ t.locallyGeneratedUncommitted ∧ d ∉ cs) ∧
      t'.locallyGeneratedCommitted = t.locallyGeneratedCommitted
  | [], t, run => by
    cases run
    simp
  | c :: cs, t, run => by
    obtain ⟨t₁, first, rest⟩ := bind_eq_ok.1 run
    obtain ⟨t₂, vks, first⟩ := bind_eq_ok.1 first
    obtain ⟨table, rfl⟩ := decrementVks_same vks
    cases first
    obtain ⟨pool, uncommitted, committed⟩ := expire_eq rest
    refine ⟨pool, fun d => ?_, committed⟩
    rw [uncommitted, mem_erase, mem_cons]
    tauto

/-! ## Moving to the new best tip -/

variable {d : BestTipChange Cmd A}

theorem backtrack_local {dropped : List Cmd} (inStep : InStep t) (run : t.backtrack d = .ok (t', dropped)) :
    (∀ c ∈ t'.locallyGeneratedUncommitted, t'.pool.member c ∨ c ∈ dropped) ∧
      ∀ c ∈ t'.locallyGeneratedUncommitted, c ∉ t'.locallyGeneratedCommitted := by
  let P : TransactionPool Cmd A Hash R Fp Vk × List Cmd → Prop := fun s =>
    (∀ c ∈ s.1.locallyGeneratedUncommitted, s.1.pool.member c ∨ c ∈ s.2) ∧
      ∀ c ∈ s.1.locallyGeneratedUncommitted, c ∉ s.1.locallyGeneratedCommitted
  have all : P (t', dropped) := by
    refine foldlM_induction (fun cmd _ s s' before step => ?_)
      (show P (t, []) from ⟨fun c mem => .inl (inStep.member c mem), inStep.apart⟩) run
    obtain ⟨added, pool, ds, add, trim, rfl⟩ := backtrackStep_eq step
    refine ⟨fun c mem => ?_, uncommit_apart before.2 cmd⟩
    have drops : Drops added pool ds := dropUntil_drops trim
    have known : added.member c ∨ c ∈ s.2 := by
      rw [(IndexedPool.addFromBacktrack_member add).1]
      rcases uncommit_mem mem with rfl | mem
      · exact .inl (.inl rfl)
      · exact (before.1 c mem).imp_left .inr
    rw [drops.member, mem_append]
    tauto
  exact all

theorem commit_eq : ∀ {cs : List Cmd} {t : TransactionPool Cmd A Hash R Fp Vk},
    cs.foldlM commitStep t = .ok t' →
    t'.pool = t.pool ∧ (∀ d, d ∈ t'.locallyGeneratedUncommitted ↔ d ∈ t.locallyGeneratedUncommitted ∧ d ∉ cs) ∧
      (∀ d, d ∈ t'.locallyGeneratedCommitted ↔
        d ∈ t.locallyGeneratedCommitted ∨ d ∈ cs ∧ d ∈ t.locallyGeneratedUncommitted)
  | [], t, run => by
    cases run
    simp
  | c :: cs, t, run => by
    obtain ⟨t₁, first, rest⟩ := bind_eq_ok.1 run
    obtain ⟨pool₁, uncommitted₁, committed₁⟩ := commitStep_eq first
    obtain ⟨pool, uncommitted, committed⟩ := commit_eq rest
    refine ⟨pool.trans pool₁, fun d => ?_, fun d => ?_⟩
    · rw [uncommitted, uncommitted₁, mem_cons]
      tauto
    · rw [committed, committed₁, uncommitted₁, mem_cons]
      tauto

variable {it : Iteration Cmd A Hash R} {m : Moved Cmd A Hash R Fp Vk}

theorem moveToBestTip_eq (run : t.moveToBestTip it d = .ok m) :
    ∃ (t₀ t₁ t₂ : TransactionPool Cmd A Hash R Fp Vk) (dropped : List Cmd)
      (pool : IndexedPool Cmd A Hash R) (stale : List Cmd), t₀.pool = t.pool ∧
      t₀.locallyGeneratedUncommitted = t.locallyGeneratedUncommitted ∧
      t₀.locallyGeneratedCommitted = t.locallyGeneratedCommitted ∧ t₀.poolMaxSize = t.poolMaxSize ∧
      t₀.backtrack d = .ok (t₁, dropped) ∧ SameTables t₁ t₂ ∧
      t₁.pool.revalidate d.accountIds (getAccount d.accountIds d.accounts) (it.senders t₁.pool) =
        .ok (pool, stale) ∧
      (stale.filter fun c => hash c ∈ d.committed.map hash).foldlM commitStep { t₂ with pool := pool } =
        .ok m.pool ∧
      m.droppedCommitConflicts = stale.filter (fun c => !decide (hash c ∈ d.committed.map hash)) ∧
      m.locallyGeneratedDropped = dropped.filter fun c => c ∈ t₁.locallyGeneratedUncommitted := by
  obtain ⟨t₀', inc, run⟩ := bind_eq_ok.1 run
  obtain ⟨t₀, dec, run⟩ := bind_eq_ok.1 run
  obtain ⟨⟨t₁, dropped⟩, back, run⟩ := bind_eq_ok.1 run
  obtain ⟨t₂, dec', run⟩ := bind_eq_ok.1 run
  obtain ⟨⟨pool, stale⟩, revalidated, run⟩ := bind_eq_ok.1 run
  obtain ⟨t₃, commits, run⟩ := bind_eq_ok.1 run
  cases run
  obtain ⟨_, rfl⟩ := incrementVks_same inc
  obtain ⟨_, same⟩ := decrementVks_same dec
  obtain ⟨table, rfl⟩ := decrementVks_same dec'
  exact ⟨t₀, t₁, _, dropped, pool, stale, by rw [same], by rw [same], by rw [same], by rw [same], back,
    ⟨table, rfl⟩, revalidated, commits, rfl, rfl⟩

/-- **After the move an uncommitted local command is in the pool, is to be added again, or was
    dropped as a conflict.** -/
theorem moveToBestTip_local (inStep : InStep t) (run : t.moveToBestTip it d = .ok m) :
    (∀ c ∈ m.pool.locallyGeneratedUncommitted, m.pool.pool.member c ∨ c ∈ m.locallyGeneratedDropped ∨
        c ∈ m.droppedCommitConflicts) ∧
      (∀ c ∈ m.pool.locallyGeneratedUncommitted, c ∉ m.pool.locallyGeneratedCommitted) ∧
      ∀ c ∈ m.droppedCommitConflicts, ¬ m.pool.pool.member c := by
  obtain ⟨t₀, t₁, t₂, dropped, pool, stale, pool₀, uncommitted₀, committed₀, -, back, ⟨table, rfl⟩, revalidated,
    commits, conflicts, todo⟩ := moveToBestTip_eq run
  have start : InStep t₀ := ⟨by rw [pool₀, uncommitted₀]; exact inStep.member,
    by rw [uncommitted₀, committed₀]; exact inStep.apart⟩
  obtain ⟨known, apart⟩ := backtrack_local start back
  have drops := IndexedPool.revalidate_drops revalidated
  obtain ⟨samePool, uncommitted, committed⟩ := commit_eq commits
  rw [samePool]
  refine ⟨fun c mem => ?_, fun c mem => ?_, fun c mem => ?_⟩
  · obtain ⟨mem, kept⟩ := (uncommitted c).1 mem
    rw [todo, conflicts, drops.member, mem_filter, mem_filter]
    rw [mem_filter, not_and] at kept
    by_cases gone : c ∈ stale
    · exact .inr (.inr ⟨gone, by simpa using kept gone⟩)
    · rcases known c mem with mem' | mem'
      · exact .inl ⟨mem', gone⟩
      · exact .inr (.inl ⟨mem', by simpa using mem⟩)
  · obtain ⟨mem, kept⟩ := (uncommitted c).1 mem
    intro mem'
    rcases (committed c).1 mem' with mem' | mem'
    · exact apart c mem mem'
    · exact kept mem'.1
  · rw [conflicts, mem_filter] at mem
    rw [drops.member]
    exact fun h => h.2 mem.1

/-! ## Adding local commands again, and expiry -/

/-- An uncommitted local command that is not in the pool, and that is not to be added again. -/
def Stranded (t : TransactionPool Cmd A Hash R Fp Vk) (todo : List Cmd) (c : Cmd) : Prop :=
  c ∈ t.locallyGeneratedUncommitted ∧ ¬ t.pool.member c ∧ c ∉ todo

/-- Adding the commands again takes no other uncommitted local command out of the pool. -/
def ReaddsKeep (d : BestTipChange Cmd A) : List Cmd → TransactionPool Cmd A Hash R Fp Vk → Prop
  | [], _ => True
  | cmd :: todo, t => ∀ t',
    t.readdStep d.globalSlotSinceGenesis d.currentGlobalSlot d.uncommitted cmd = .ok t' →
      (∀ c ∈ t.locallyGeneratedUncommitted, c ∉ todo → t.pool.member c → t'.pool.member c) ∧
      ReaddsKeep d todo t'

theorem readd_apart (apart : ∀ c ∈ t.locallyGeneratedUncommitted, c ∉ t.locallyGeneratedCommitted)
    (run : t.readdStep slot current uncommitted c = .ok t') :
    ∀ c ∈ t'.locallyGeneratedUncommitted, c ∉ t'.locallyGeneratedCommitted := by
  obtain ⟨committed, ⟨rfl, -⟩ | ⟨-, uncommitted⟩ | ⟨uncommitted, -⟩⟩ := readdStep_eq run
  · exact apart
  · intro c mem
    rw [committed]
    exact apart c ((uncommitted c).1 mem).1
  · rw [committed, uncommitted]
    exact apart

/-- **One command is added again**: it is in the pool afterwards, or not uncommitted any more. -/
theorem readd_member (apart : ∀ c ∈ t.locallyGeneratedUncommitted, c ∉ t.locallyGeneratedCommitted)
    (run : t.readdStep slot current uncommitted c = .ok t') :
    c ∈ t'.locallyGeneratedUncommitted → t'.pool.member c := by
  intro mem
  obtain ⟨-, ⟨rfl, inBoth⟩ | ⟨-, uncommitted⟩ | ⟨-, _, _, ⟨pool, _, _⟩, accepted, same⟩⟩ := readdStep_eq run
  · exact absurd inBoth (apart c mem)
  · exact absurd rfl ((uncommitted c).1 mem).2
  · rw [same]
    exact IndexedPool.addFromGossipExn_member accepted

theorem readd_uncommitted {cmd : Cmd} (run : t.readdStep slot current uncommitted cmd = .ok t')
    (mem : c ∈ t'.locallyGeneratedUncommitted) : c ∈ t.locallyGeneratedUncommitted := by
  obtain ⟨-, ⟨rfl, -⟩ | ⟨-, uncommitted⟩ | ⟨uncommitted, -⟩⟩ := readdStep_eq run
  · exact mem
  · exact ((uncommitted c).1 mem).1
  · exact uncommitted ▸ mem

/-- The loop that adds local commands again strands none, if its rounds drop none. -/
theorem readd_notStranded {d : BestTipChange Cmd A} : ∀ {todo : List Cmd}
    {t : TransactionPool Cmd A Hash R Fp Vk},
    (∀ c ∈ t.locallyGeneratedUncommitted, c ∉ t.locallyGeneratedCommitted) → (∀ c, ¬ Stranded t todo c) →
    ReaddsKeep d todo t →
    todo.foldlM (readdStep d.globalSlotSinceGenesis d.currentGlobalSlot d.uncommitted) t = .ok t' → InStep t'
  | [], t, apart, free, _, run => by
    cases run
    refine ⟨fun c mem => ?_, apart⟩
    by_contra out
    exact free c ⟨mem, out, not_mem_nil⟩
  | cmd :: todo, t, apart, free, keep, run => by
    obtain ⟨t₁, first, rest⟩ := bind_eq_ok.1 run
    obtain ⟨kept, later⟩ := keep t₁ first
    refine readd_notStranded (readd_apart apart first) (fun c stranded => ?_) later rest
    obtain ⟨mem, out, notLater⟩ := stranded
    have before := readd_uncommitted first mem
    by_cases e : c = cmd
    · exact out (e ▸ readd_member apart first (e ▸ mem))
    · refine free c ⟨before, fun inPool => out (kept c before notLater inPool), ?_⟩
      rw [mem_cons, not_or]
      exact ⟨e, notLater⟩

/-- No conflict is dropped, unless it is to be added again, and adding again drops none. -/
def KeepsLocal (it : Iteration Cmd A Hash R) (d : BestTipChange Cmd A)
    (t : TransactionPool Cmd A Hash R Fp Vk) : Prop :=
  ∀ m, t.moveToBestTip it d = .ok m →
    (∀ c ∈ m.droppedCommitConflicts, c ∈ m.pool.locallyGeneratedUncommitted →
      c ∈ m.locallyGeneratedDropped) ∧
    ReaddsKeep d m.locallyGeneratedDropped m.pool

theorem handleTransitionFrontierDiff_eq (run : t.handleTransitionFrontierDiff it d = .ok t') :
    ∃ m t₂ pool expired, t.moveToBestTip it d = .ok m ∧ m.locallyGeneratedDropped.foldlM
        (readdStep d.globalSlotSinceGenesis d.currentGlobalSlot d.uncommitted) m.pool = .ok t₂ ∧
      t₂.pool.removeExpired (it.expired t₂.pool d.globalSlotSinceGenesis) = .ok (pool, expired) ∧
      expired.foldlM expireStep { t₂ with pool := pool } = .ok t' := by
  obtain ⟨m, moved, run⟩ := bind_eq_ok.1 run
  obtain ⟨t₂, readded, run⟩ := bind_eq_ok.1 run
  obtain ⟨⟨pool, expired⟩, removed, run⟩ := bind_eq_ok.1 run
  exact ⟨m, t₂, pool, expired, moved, readded, removed, run⟩

theorem handle_inStep (inStep : InStep t) (keeps : KeepsLocal it d t)
    (run : t.handleTransitionFrontierDiff it d = .ok t') : InStep t' := by
  obtain ⟨m, t₂, pool, expired, moved, readded, removed, expire⟩ := handleTransitionFrontierDiff_eq run
  obtain ⟨known, apart, -⟩ := moveToBestTip_local inStep moved
  obtain ⟨conflicts, readds⟩ := keeps m moved
  have free : ∀ c, ¬ Stranded m.pool m.locallyGeneratedDropped c := by
    rintro c ⟨mem, out, notTodo⟩
    rcases known c mem with inPool | todo | conflict
    · exact out inPool
    · exact notTodo todo
    · exact notTodo (conflicts c conflict mem)
  have between := readd_notStranded apart free readds readded
  have drops := IndexedPool.removeExpired_drops removed
  obtain ⟨samePool, uncommitted, committed⟩ := expire_eq expire
  constructor
  · intro c mem
    obtain ⟨mem, kept⟩ := (uncommitted c).1 mem
    rw [samePool]
    exact (drops.member c).2 ⟨between.member c mem, kept⟩
  · intro c mem
    rw [committed]
    exact between.apart c ((uncommitted c).1 mem).1

/-! ## Pools that satisfy the invariant -/

theorem dropUntil_valid {poolMaxSize rounds : ℕ} {p p' : IndexedPool Cmd A Hash R} {dropped : List Cmd}
    (valid : Valid p) (run : dropUntil poolMaxSize rounds p = .ok (p', dropped)) : Valid p' := by
  obtain ⟨C, H, h⟩ := valid
  obtain ⟨_, _, C', H', total, h', -⟩ := h.dropUntil poolMaxSize rounds
  cases run.symm.trans total
  exact ⟨C', H', h'⟩

theorem backtrack_valid {slot current : ℕ} : ∀ {cmds : List Cmd}
    {s s' : TransactionPool Cmd A Hash R Fp Vk × List Cmd}, Valid s.1.pool →
    s.1.pool.size + cmds.length < 2 ^ 32 → cmds.foldlM (backtrackStep slot current) s = .ok s' →
    Valid s'.1.pool ∧ s'.1.pool.size + s'.2.length = s.1.pool.size + s.2.length + cmds.length
  | [], s, s', valid, _, run => by
    cases run
    exact ⟨valid, rfl⟩
  | c :: cmds, s, s', valid, small, run => by
    obtain ⟨s₁, first, rest⟩ := bind_eq_ok.1 run
    obtain ⟨added, pool, dropped, add, trim, rfl⟩ := backtrackStep_eq first
    rw [length_cons] at small
    obtain ⟨C, H, h⟩ := valid
    have length := h.queue_length_le (feePayer c)
    obtain ⟨C', H', h', -⟩ := h.addFromBacktrack (show _ < 2 ^ 32 by omega) add
    have grown := (IndexedPool.addFromBacktrack_member add).2
    have dropSize : pool.size + dropped.length = added.size := (dropUntil_drops trim).size
    obtain ⟨valid', count⟩ := backtrack_valid (by exact dropUntil_valid ⟨C', H', h'⟩ trim)
      (by dsimp only; omega) rest
    refine ⟨valid', ?_⟩
    rw [count, length_append, length_cons]
    dsimp only
    omega

theorem moveToBestTip_valid (valid : Valid t.pool) (small : t.pool.size + d.rolledBack.length < 2 ^ 32)
    (run : t.moveToBestTip it d = .ok m) :
    Valid m.pool.pool ∧ m.pool.pool.size + m.locallyGeneratedDropped.length < 2 ^ 32 := by
  obtain ⟨t₀, t₁, t₂, dropped, pool, stale, pool₀, -, -, -, back, -, revalidated, commits, -, todo⟩ :=
    moveToBestTip_eq run
  rw [← pool₀] at valid small
  obtain ⟨⟨C, H, h⟩, count⟩ := backtrack_valid valid small back
  obtain ⟨C', H', h', -⟩ := (h.revalidate _ _ (it.senders_perm t₁.pool)).result revalidated
  have shrunk := (IndexedPool.revalidate_drops revalidated).size_le
  have fewer : m.locallyGeneratedDropped.length ≤ dropped.length := by
    rw [todo]
    exact length_filter_le _ _
  rw [(commit_eq commits).1]
  refine ⟨⟨C', H', h'⟩, ?_⟩
  dsimp only [length_nil] at count ⊢
  omega

/-- **A stranded command stays stranded** while another command is added again. -/
theorem readdStep_valid {cmd : Cmd} (valid : Valid t.pool) (small : t.pool.size < 2 ^ 32)
    (run : t.readdStep slot current uncommitted cmd = .ok t') :
    Valid t'.pool ∧ t'.pool.size ≤ t.pool.size + 1 ∧
      ∀ c todo, Stranded t (cmd :: todo) c → Stranded t' todo c := by
  obtain ⟨-, ⟨rfl, -⟩ | ⟨pool, uncommitted⟩ | ⟨uncommitted, nonce, balance, result, accepted, pool⟩⟩ :=
    readdStep_eq run
  · refine ⟨valid, by omega, fun c todo ⟨mem, out, notTodo⟩ => ⟨mem, out, fun later => notTodo ?_⟩⟩
    exact mem_cons_of_mem _ later
  · rw [pool]
    refine ⟨valid, by omega, fun c todo ⟨mem, out, notTodo⟩ => ?_⟩
    rw [mem_cons, not_or] at notTodo
    exact ⟨(uncommitted c).2 ⟨mem, notTodo.1⟩, by rwa [pool], notTodo.2⟩
  · obtain ⟨C, H, h⟩ := valid
    have length := h.queue_length_le (feePayer cmd)
    obtain ⟨C', H', h', added⟩ := (h.addFromGossip_ends nonce (show _ < 2 ^ 32 by omega)).result accepted
    rw [pool]
    refine ⟨⟨C', H', h'⟩, ?_, fun c todo ⟨mem, out, notTodo⟩ => ?_⟩
    · rw [h'.indexed.size, h.indexed.size]
      refine (Finset.card_le_card fun c mem => ?_).trans (Finset.card_insert_le cmd C)
      rw [Finset.mem_insert]
      exact added c mem
    · rw [mem_cons, not_or] at notTodo
      refine ⟨uncommitted ▸ mem, fun inPool => ?_, notTodo.2⟩
      rw [pool] at inPool
      rcases added c (h'.indexed.member_iff.1 inPool) with e | old
      · exact notTodo.1 e
      · exact out (h.indexed.member_iff.2 old)

theorem readd_stranded {d : BestTipChange Cmd A} : ∀ {todo : List Cmd}
    {t : TransactionPool Cmd A Hash R Fp Vk}, Valid t.pool →
    t.pool.size + todo.length < 2 ^ 32 →
    todo.foldlM (readdStep d.globalSlotSinceGenesis d.currentGlobalSlot d.uncommitted) t = .ok t' →
    Valid t'.pool ∧ ∀ c, Stranded t todo c → Stranded t' [] c
  | [], t, valid, _, run => by
    cases run
    exact ⟨valid, fun c stranded => stranded⟩
  | cmd :: todo, t, valid, small, run => by
    obtain ⟨t₁, first, rest⟩ := bind_eq_ok.1 run
    rw [length_cons] at small
    obtain ⟨valid₁, size₁, step⟩ := readdStep_valid valid (by omega) first
    obtain ⟨valid', later⟩ := readd_stranded valid₁ (by omega) rest
    exact ⟨valid', fun c stranded => later c (step c todo stranded)⟩

theorem expire_stranded {pool : IndexedPool Cmd A Hash R} {expired : List Cmd} (valid : Valid t.pool)
    (removed : t.pool.removeExpired (it.expired t.pool slot) = .ok (pool, expired))
    (expire : expired.foldlM expireStep { t with pool := pool } = .ok t') (stranded : Stranded t [] c) :
    ¬ InStep t' := by
  intro inStep
  obtain ⟨C, H, h⟩ := valid
  obtain ⟨_, _, C', H', removed', -, removes⟩ := h.removeExpired (it.expired t.pool slot)
  cases removed.symm.trans removed'
  obtain ⟨mem, out, -⟩ := stranded
  have notExpired : c ∉ expired := fun hc =>
    out (h.indexed.member_iff.2 (removes.dropped_mem c hc))
  obtain ⟨samePool, uncommitted, -⟩ := expire_eq expire
  have inPool := inStep.member c ((uncommitted c).2 ⟨mem, notExpired⟩)
  rw [samePool] at inPool
  exact out (((IndexedPool.removeExpired_drops removed).member c).1 inPool).1

/-- If no command is stranded in the end, none was dropped while commands were added again. -/
theorem readdsKeep_of {d : BestTipChange Cmd A} : ∀ {todo : List Cmd}
    {t t₂ : TransactionPool Cmd A Hash R Fp Vk}, Valid t.pool →
    t.pool.size + todo.length < 2 ^ 32 →
    todo.foldlM (readdStep d.globalSlotSinceGenesis d.currentGlobalSlot d.uncommitted) t = .ok t₂ →
    (∀ c, ¬ Stranded t₂ [] c) → ReaddsKeep d todo t
  | [], _, _, _, _, _, _ => trivial
  | cmd :: todo, t, t₂, valid, small, run, free => by
    intro t₁ first
    rw [foldlM_cons, first] at run
    rw [length_cons] at small
    obtain ⟨valid₁, size₁, -⟩ := readdStep_valid valid (by omega) first
    have small₁ : t₁.pool.size + todo.length < 2 ^ 32 := by omega
    refine ⟨fun c mem notTodo inPool => ?_, readdsKeep_of valid₁ small₁ run free⟩
    by_contra out
    refine free c ((readd_stranded valid₁ small₁ run).2 c ⟨?_, out, notTodo⟩)
    obtain ⟨-, ⟨rfl, -⟩ | ⟨pool, -⟩ | ⟨uncommitted, -⟩⟩ := readdStep_eq first
    · exact mem
    · rw [pool] at out
      exact absurd inPool out
    · exact uncommitted ▸ mem

/-! ## Rebroadcasting -/

theorem mem_getRebroadcastable {hasTimedOut : ℕ → Bool} {group : List Cmd}
    (hgroup : group ∈ (t.getRebroadcastable hasTimedOut).2) (mem : c ∈ group) :
    c ∈ t.locallyGeneratedUncommitted := by
  obtain ⟨entries, hentries, rfl⟩ := mem_map.1 hgroup
  obtain ⟨e, he, rfl⟩ := mem_map.1 mem
  have sorted := mem_flatten.2 ⟨entries, hentries, he⟩
  rw [flatten_splitBy, mem_insertionSort] at sorted
  exact mem_map_of_mem (mem_filter.1 sorted).1

/-- A local payment, and another payment of the same sender with the same nonce. -/
inductive Payment where
  | mine
  | other
  deriving DecidableEq, Repr

instance : PoolCommand Payment Unit ℕ ℕ where
  hash
    | .mine => 0
    | .other => 1
  hash_injective a b := by cases a <;> cases b <;> simp
  feePayer _ := ()
  fee _ := 1
  amount _ := 0
  feePerWu _ := 1
  applicableAtNonce _ := 0
  applicableAtNonce_lt _ := by decide
  validUntil _ := slotMax
  validUntil_lt _ := by decide

instance : VkCommand Payment Unit ℕ ℕ where
  extractVks _ := []
  vkHash := id

def onePayment : TransactionPool Payment Unit ℕ ℕ ℕ ℕ where
  pool :=
    { applicableByFee := AList.insert 1 (AList.insert .mine () ∅) ∅
      allBySender := AList.insert () ([.mine], 1) ∅
      allByFee := AList.insert 1 (AList.insert .mine () ∅) ∅
      allByHash := AList.insert 0 .mine ∅
      transactionsWithExpiration := ∅
      size := 1
      slotTxEnd := none }
  locallyGeneratedUncommitted := AList.insert .mine ⟨0, 0⟩ ∅
  locallyGeneratedCommitted := ∅
  poolMaxSize := 3000
  verificationKeyTable := .empty

/-- The new best tip has one command of the sender, whose nonce is then `1`. -/
def oneMoreBlock (cmd : Payment) : BestTipChange Payment Unit where
  globalSlotSinceGenesis := 0
  currentGlobalSlot := 0
  newCommands := [cmd]
  removedCommands := []
  accountIds _ := true
  accounts _ := some ⟨1, 10, true⟩
  uncommitted _ := some ⟨1, 10, true⟩

theorem onePayment_inStep : InStep onePayment := by
  constructor
  · decide
  · decide

end MinaRust.TransactionPool.TransactionPool
