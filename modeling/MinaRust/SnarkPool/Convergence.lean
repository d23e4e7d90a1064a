/-
  The snark pool (`node/src/snark_pool`): which snark is stored for a job.

  Snarks come in one by one (`WorkAdd`) or with the blocks that were orphaned (`JobsUpdate`).
  Both keep the better snark.
-/
import MinaRust.Core.PoolIndex
import MinaRust.Lib.Best
import MinaRust.SnarkPool.Snark

set_option linter.unusedSectionVars false

namespace MinaRust.SnarkPool

open List Option

structure SnarkWork (P R F : Type) where
  work : Snark R F
  receivedT : ℕ
  sender : P
  deriving DecidableEq

structure JobState (P J R F T C : Type) where
  time : ℕ
  id : J
  job : T
  commitment : Option C
  snark : Option (SnarkWork P R F)
  order : ℕ

variable {P J R F D T C : Type} [LinearOrder P] [LinearOrder J]
  [LinearOrder D]

/-- The jobs of the pool by id. -/
abbrev Jobs (P J R F T C : Type) [LinearOrder J] : Type :=
  DistributedPool (JobState P J R F T C) J

structure SnarkPoolState (P J R F T C : Type) [LinearOrder P]
    [LinearOrder J] where
  pool : Jobs P J R F T C
  candidates : CandidatesState P J R F

namespace SnarkPoolState

def new : SnarkPoolState P J R F T C := ⟨.empty, .empty⟩

end SnarkPoolState

/-! ## The pool -/

section
variable (W : Params J R F D T)

def setSnarkWork (pool : Jobs P J R F T C) (snark : SnarkWork P R F) : Jobs P J R F T C :=
  (pool.update JobState.id (W.jobIdOf snark.work) fun job => (job.snark, { job with snark := some snark })).2

def workAddEnabled (pool : Jobs P J R F T C) (snark : Snark R F) : Bool :=
  (pool.get (W.jobIdOf snark)).any fun s =>
    s.snark.all fun cur => decide (W.cmp (W.cmpOfSnark snark) (W.cmpOfSnark cur.work) = .gt)

variable (snark : SnarkWork P R F) (m : OrdMap J (ℕ × T)) (id : J) (job : JobState P J R F T C)
  (s : SnarkPoolState P J R F T C) (time : ℕ)

def workAdd (snark : Snark R F) (sender : P) : SnarkPoolState P J R F T C :=
  if workAddEnabled W s.pool snark then
    ⟨setSnarkWork W s.pool ⟨snark, time, sender⟩, s.candidates.removeInferiorSnarks W snark⟩
  else s

variable (jobs : List T)

/-- By id, with their place in the list; of two jobs with one id the later one counts. -/
def jobsMap : OrdMap J (ℕ × T) :=
  jobs.zipIdx.foldl (fun m e => m.insert (W.idOfJob e.1) (e.2, e.1)) .empty

/-- A job that is still needed gets its new order and is taken out of the map. -/
def retainJob : OrdMap J (ℕ × T) × JobState P J R F T C × Bool :=
  match m.get id with
  | none => (m, job, false)
  | some (order, _) => (m.remove id, { job with order := order }, true)

def insertJob (pool : Jobs P J R F T C) (e : J × ℕ × T) : Jobs P J R F T C :=
  pool.insert JobState.id ⟨time, e.1, e.2.2, none, none, e.2.1⟩

def takeOrphan (pool : Jobs P J R F T C) (snark : SnarkWork P R F) : Jobs P J R F T C :=
  let take := ((pool.get (W.jobIdOf snark.work)).bind JobState.snark).all fun old =>
    decide (W.cmp (W.cmpOfSnark snark.work) (W.cmpOfSnark old.work) = .gt)
  if take then setSnarkWork W pool snark else pool

/-- A candidate stays when its job is in the pool without a snark or with a lesser one. -/
def candidatesPrune : SnarkPoolState P J R F T C :=
  { s with candidates := SparseTable.retain s.candidates fun _ id candidate =>
      match s.pool.get id with
      | none => false
      | some job =>
        match job.snark with
        | none => true
        | some snark => decide (W.cmp (W.cmpOfSnark snark.work) (W.cmpOfCandidate candidate) = .lt) }

def jobsUpdate (orphanedSnarks : List (SnarkWork P R F)) : SnarkPoolState P J R F T C :=
  let (jobsMap, pool) := s.pool.retainAndUpdate retainJob (jobsMap W jobs)
  let pool := jobsMap.entries.foldl (insertJob time) pool
  let pool := orphanedSnarks.foldl (takeOrphan W) pool
  candidatesPrune W { s with pool := pool }

/-- The steps of a run: the two ways in which snarks are delivered, and the actions of the
    candidates. -/
inductive Step (P J R F T : Type) where
  | workAdd (time : ℕ) (snark : Snark R F) (sender : P)
  | jobsUpdate (time : ℕ) (jobs : List T) (orphanedSnarks : List (SnarkWork P R F))
  | candidates (op : CandidatesState.Op P J R F)

def step : Step P J R F T → SnarkPoolState P J R F T C
  | .workAdd time snark sender => workAdd W s time snark sender
  | .jobsUpdate time jobs orphanedSnarks => jobsUpdate W s time jobs orphanedSnarks
  | .candidates op => { s with candidates := s.candidates.apply W op }

def run (steps : List (Step P J R F T)) : SnarkPoolState P J R F T C :=
  steps.foldl (step W) s

/-! ## What the statements speak about -/

def stored (pool : Jobs P J R F T C) (id : J) : Option (SnarkWork P R F) :=
  (pool.get id).bind JobState.snark

def rankOf : J ×ₗ (ℕᵒᵈ ×ₗ D) :=
  W.rank (W.cmpOfSnark snark.work)

def deliveries : Step P J R F T → List (SnarkWork P R F)
  | .workAdd time snark sender => if W.jobIdOf snark = id then [⟨snark, time, sender⟩] else []
  | .jobsUpdate _ _ orphanedSnarks => orphanedSnarks.filter fun snark => decide (W.jobIdOf snark.work = id)
  | .candidates _ => []

/-- The job `id` stays in the pool: every `JobsUpdate` has it. -/
def Keeps : Step P J R F T → Prop
  | .jobsUpdate _ jobs _ => ∃ job ∈ jobs, W.idOfJob job = id
  | _ => True

def indices : Step P J R F T → ℕ
  | .workAdd .. => 1
  | .jobsUpdate _ jobs orphanedSnarks => jobs.length + orphanedSnarks.length
  | .candidates _ => 0

def Step.isDelivery : Step P J R F T → Bool
  | .candidates _ => false
  | _ => true

/-- No candidate for a job is below or equal to its stored snark. -/
def NoInferior : Prop :=
  ∀ peer id candidate snark, s.candidates.cell peer id = some candidate → stored s.pool id = some snark →
    W.cmp (W.cmpOfSnark snark.work) (W.cmpOfCandidate candidate) = .lt

structure WellFormed (s : SnarkPoolState P J R F T C) : Prop where
  jobs : s.pool.Indexed JobState.id
  candidates : s.candidates.Consistent

variable {W} {pool : Jobs P J R F T C}

/-! ## One snark is offered -/

theorem setSnarkWork_spec (h : pool.Indexed JobState.id) (few : pool.counter + 1 < 2 ^ 64)
    (snark : SnarkWork P R F) :
    (setSnarkWork W pool snark).Indexed JobState.id ∧ ∀ id, (setSnarkWork W pool snark).get id =
        if id = W.jobIdOf snark.work then (pool.get id).map fun job => { job with snark := some snark }
        else pool.get id := by
  unfold setSnarkWork
  cases found : pool.get (W.jobIdOf snark.work) with
  | none =>
    rw [h.update_none found]
    refine ⟨h, fun id => ?_⟩
    split
    · next eq => rw [eq, found]; rfl
    · rfl
  | some job =>
    have key : job.id = W.jobIdOf snark.work := h.asRef_of_get found
    obtain ⟨indexed, -, get⟩ :=
      h.update (f := fun job => (job.snark, { job with snark := some snark })) found key few
    refine ⟨indexed, fun id => (get id).trans ?_⟩
    split
    · next eq => rw [eq, found]; rfl
    · rfl

/-- **One orphaned snark**: the job's slot keeps the better one, the other jobs stay as they
    are. -/
theorem takeOrphan_spec (h : pool.Indexed JobState.id) (few : pool.counter + 1 < 2 ^ 64)
    (snark : SnarkWork P R F) :
    (takeOrphan W pool snark).Indexed JobState.id ∧
      ∀ id, ((takeOrphan W pool snark).get id).isSome = (pool.get id).isSome ∧
        ((pool.get id).isSome = true → stored (takeOrphan W pool snark) id =
          if W.jobIdOf snark.work = id then keepBest (rankOf W) (stored pool id) snark
          else stored pool id) := by
  obtain ⟨indexed, get⟩ := setSnarkWork_spec (W := W) h few snark
  unfold takeOrphan
  dsimp only
  split
  · next take =>
    refine ⟨indexed, fun id => ⟨?_, fun present => ?_⟩⟩
    · rw [get]
      split <;> simp
    · obtain ⟨job, found⟩ := Option.isSome_iff_exists.1 present
      rw [stored, get, stored]
      by_cases eq : W.jobIdOf snark.work = id
      · rw [if_pos eq.symm, if_pos eq, found, map_some, bind_some, bind_some]
        rw [eq, found] at take
        cases old : job.snark with
        | none => rfl
        | some old' =>
          have better : W.cmp (W.cmpOfSnark snark.work) (W.cmpOfSnark old'.work) = .gt := by
            simpa [old] using take
          exact (if_pos (Params.cmp_eq_gt.1 better)).symm
      · rw [if_neg (Ne.symm eq), if_neg eq]
  · next keep =>
    refine ⟨h, fun id => ⟨rfl, fun present => ?_⟩⟩
    split
    · next eq =>
      rw [eq] at keep
      change ¬ (stored pool id).all _ = true at keep
      cases old : stored pool id with
      | none => simp [old] at keep
      | some old' =>
        have worse : ¬ W.cmp (W.cmpOfSnark snark.work) (W.cmpOfSnark old'.work) = .gt := by
          simpa [old] using keep
        exact (if_neg fun lt => worse (Params.cmp_eq_gt.2 lt)).symm
    · rfl

theorem workAdd_pool {s : SnarkPoolState P J R F T C}
    (h : s.pool.Indexed JobState.id) (time : ℕ) (snark : Snark R F) (sender : P) :
    (workAdd W s time snark sender).pool = takeOrphan W s.pool ⟨snark, time, sender⟩ := by
  unfold workAdd takeOrphan workAddEnabled
  cases found : s.pool.get (W.jobIdOf snark) with
  | none =>
    -- the job is not there: nothing is updated
    have absent : setSnarkWork W s.pool ⟨snark, time, sender⟩ = s.pool := by
      rw [setSnarkWork, h.update_none found]
    simp [absent]
  | some job =>
    simp only [any_some, bind_some]
    split <;> rfl

theorem takeOrphan_counter_le : (takeOrphan W pool snark).counter ≤ pool.counter + 1 := by
  unfold takeOrphan
  dsimp only
  split
  · exact DistributedPool.update_counter_le ..
  · exact Nat.le_succ _

theorem foldl_takeOrphan : ∀ (snarks : List (SnarkWork P R F))
    (pool : Jobs P J R F T C), pool.Indexed JobState.id →
    pool.counter + snarks.length < 2 ^ 64 →
    (snarks.foldl (takeOrphan W) pool).Indexed JobState.id ∧
      (snarks.foldl (takeOrphan W) pool).counter ≤ pool.counter + snarks.length ∧
      ∀ id, (pool.get id).isSome = true → ((snarks.foldl (takeOrphan W) pool).get id).isSome = true ∧
        stored (snarks.foldl (takeOrphan W) pool) id =
          (snarks.filter fun snark => decide (W.jobIdOf snark.work = id)).foldl (keepBest (rankOf W))
            (stored pool id)
  | [], pool, h, _ => ⟨h, le_rfl, fun id present => ⟨present, rfl⟩⟩
  | snark :: snarks, pool, h, few => by
    rw [length_cons] at few
    have count : (takeOrphan W pool snark).counter ≤ pool.counter + 1 := takeOrphan_counter_le snark
    obtain ⟨indexed, first⟩ := takeOrphan_spec (W := W) h (by omega) snark
    obtain ⟨indexed', count', rest⟩ := foldl_takeOrphan snarks (takeOrphan W pool snark) indexed (by omega)
    refine ⟨indexed', ?_, fun id present => ?_⟩
    · rw [length_cons]
      exact count'.trans (by omega)
    · obtain ⟨present', eq⟩ := rest id ((first id).1.trans present)
      refine ⟨present', eq.trans ?_⟩
      rw [(first id).2 present]
      by_cases this : W.jobIdOf snark.work = id
      · rw [if_pos this, filter_cons_of_pos (by simpa using this), foldl_cons]
      · rw [if_neg this, filter_cons_of_neg (by simpa using this)]

/-! ## The jobs are updated -/

theorem jobsMap_get (id : J) : ∀ (jobs : List (T × ℕ)) (m : OrdMap J (ℕ × T)),
    ((m.get id).isSome = true ∨ ∃ e ∈ jobs, W.idOfJob e.1 = id) →
    ((jobs.foldl (fun m e => m.insert (W.idOfJob e.1) (e.2, e.1)) m).get id).isSome = true
  | [], m, h => by simpa using h
  | e :: jobs, m, h => by
    refine jobsMap_get id jobs _ ?_
    rw [OrdMap.get_insert]
    rcases h with old | ⟨e', mem, eq⟩
    · left
      split <;> simp [old]
    · rcases mem_cons.1 mem with rfl | later
      · left
        simp [eq]
      · exact .inr ⟨e', later, eq⟩

theorem length_jobsMap_le : ∀ (jobs : List (T × ℕ)) (m : OrdMap J (ℕ × T)),
    (jobs.foldl (fun m e => m.insert (W.idOfJob e.1) (e.2, e.1)) m).entries.length ≤
      m.entries.length + jobs.length
  | [], _ => le_rfl
  | e :: jobs, m => by
    have first := m.length_insert_le (W.idOfJob e.1) (e.2, e.1)
    have rest := length_jobsMap_le jobs (m.insert (W.idOfJob e.1) (e.2, e.1))
    rw [foldl_cons, length_cons]
    omega

theorem retainJob_id (h : job.id = id) : (retainJob m id job).2.1.id = id := by
  unfold retainJob
  cases m.get id <;> exact h

theorem retainJob_map (id₀ : J) (job : JobState P J R F T C) :
    (retainJob m id₀ job).1.entries.length ≤ m.entries.length ∧
      ∀ id, (retainJob m id₀ job).1.get id = if id = id₀ then none else m.get id := by
  unfold retainJob
  cases entry : m.get id₀ with
  | none =>
    dsimp only
    refine ⟨le_rfl, fun id => ?_⟩
    split
    · next eq => rw [eq, entry]
    · rfl
  | some e => exact ⟨m.length_retain_le _, OrdMap.get_remove m id₀⟩

theorem retainJob_independent (id' : J) (job' : JobState P J R F T C) (ne : id' ≠ id) :
    (retainJob (retainJob m id job).1 id' job').2 = (retainJob m id' job').2 := by
  have same : (retainJob m id job).1.get id' = m.get id' := by
    rw [(retainJob_map m id job).2, if_neg ne]
  unfold retainJob at same ⊢
  rw [same]
  cases m.get id' <;> rfl

theorem retainLoop_map : ∀ (es : List (J × ℕ)) (m : OrdMap J (ℕ × T))
    (pool : Jobs P J R F T C), pool.Indexed JobState.id →
    (es.map Prod.fst).Nodup → (∀ e ∈ es, pool.byKey.get e.1 = some e.2) →
    (es.foldl (DistributedPool.retainStep retainJob) (m, pool)).1.entries.length ≤ m.entries.length ∧
    ∀ id, (es.foldl (DistributedPool.retainStep retainJob) (m, pool)).1.get id =
      if id ∈ es.map Prod.fst then none else m.get id
  | [], m, pool, _, _, _ => ⟨le_rfl, fun id => by simp⟩
  | (id₀, i) :: es, m, pool, h, nodup, found => by
    rw [map_cons, nodup_cons] at nodup
    rw [forall_mem_cons] at found
    obtain ⟨job, stored, eq⟩ := (h.byKey id₀ i).1 found.1
    obtain ⟨fst, indexed, others, -⟩ := h.retainStep found.1 stored (retainJob_id m id₀ job eq)
    have rest : ∀ e ∈ es,
        (DistributedPool.retainStep retainJob (m, pool) (id₀, i)).2.byKey.get e.1 = some e.2 := by
      intro e mem
      have ne : e.1 ≠ id₀ := fun eq => nodup.1 (mem_map.2 ⟨e, mem, eq⟩)
      rw [others e.1 ne]
      exact found.2 e mem
    obtain ⟨length, later⟩ := retainLoop_map es
      (DistributedPool.retainStep retainJob (m, pool) (id₀, i)).1 _ indexed nodup.2 rest
    have first := retainJob_map m id₀ job
    rw [← fst] at first
    refine ⟨length.trans first.1, fun id => (later id).trans ?_⟩
    rw [first.2, map_cons]
    by_cases this : id = id₀
    · simp [this]
    · simp only [mem_cons, this, if_false, false_or]

theorem foldl_insertJob (time : ℕ) : ∀ (es : List (J × ℕ × T))
    (pool : Jobs P J R F T C), pool.Indexed JobState.id →
    (es.map Prod.fst).Nodup → (∀ e ∈ es, pool.get e.1 = none) → pool.counter + es.length < 2 ^ 64 →
    (es.foldl (insertJob time) pool).Indexed JobState.id ∧
      (es.foldl (insertJob time) pool).counter ≤ pool.counter + es.length ∧
      ∀ id job, pool.get id = some job → (es.foldl (insertJob time) pool).get id = some job
  | [], pool, h, _, _, _ => ⟨h, le_rfl, fun _ _ found => found⟩
  | e :: es, pool, h, nodup, absent, few => by
    rw [map_cons, nodup_cons] at nodup
    rw [forall_mem_cons] at absent
    rw [length_cons] at few
    have indexed : (insertJob time pool e).Indexed JobState.id := h.insert absent.1 (by omega)
    have get : ∀ id, (insertJob time pool e).get id = if id = e.1 then _ else pool.get id :=
      h.get_insert _
    have count : (insertJob time pool e).counter ≤ pool.counter + 1 := min_le_left _ _
    have rest : ∀ e' ∈ es, (insertJob time pool e).get e'.1 = none := by
      intro e' mem
      have ne : e'.1 ≠ e.1 := fun eq => nodup.1 (mem_map.2 ⟨e', mem, eq⟩)
      rw [get, if_neg ne]
      exact absent.2 e' mem
    obtain ⟨indexed', count', keep⟩ := foldl_insertJob time es _ indexed nodup.2 rest (by omega)
    refine ⟨indexed', ?_, fun id job found => keep id job ?_⟩
    · rw [length_cons]
      exact count'.trans (by omega)
    · have ne : id ≠ e.1 := fun eq => by rw [eq, absent.1] at found; cases found
      rw [get, if_neg ne, found]

theorem jobsUpdate_jobs (h : pool.Indexed JobState.id) (time : ℕ) (jobs : List T)
    (few : pool.counter + jobs.length < 2 ^ 64) :
    let r := pool.retainAndUpdate retainJob (jobsMap W jobs)
    (r.1.entries.foldl (insertJob time) r.2).Indexed JobState.id ∧
      (r.1.entries.foldl (insertJob time) r.2).counter ≤ pool.counter + jobs.length ∧
      ∀ id, (pool.get id).isSome = true → (∃ job ∈ jobs, W.idOfJob job = id) →
        ((r.1.entries.foldl (insertJob time) r.2).get id).isSome = true ∧
        stored (r.1.entries.foldl (insertJob time) r.2) id = stored pool id := by
  intro r
  obtain ⟨indexed, get⟩ := h.retainAndUpdate (jobsMap W jobs) retainJob_id retainJob_independent
  have nodup : (pool.byKey.entries.map Prod.fst).Nodup :=
    pairwise_map.2 (pool.byKey.sorted.imp ne_of_lt)
  obtain ⟨length, left⟩ := retainLoop_map pool.byKey.entries (jobsMap W jobs) pool h nodup
    fun e mem => OrdMap.get_eq_some.2 mem
  have count : r.2.counter = pool.counter := DistributedPool.retainLoop_counter ..
  have size : (jobsMap W jobs).entries.length ≤ jobs.length := by
    have bound := length_jobsMap_le (W := W) jobs.zipIdx .empty
    rw [length_zipIdx] at bound
    exact bound.trans (Nat.zero_add _).le
  have length : r.1.entries.length ≤ jobs.length := length.trans size
  have absent : ∀ e ∈ r.1.entries, r.2.get e.1 = none := by
    intro e mem
    have entry : r.1.get e.1 = some e.2 := OrdMap.get_eq_some.2 mem
    have key : e.1 ∉ pool.byKey.entries.map Prod.fst := by
      intro old
      have gone := left e.1
      rw [if_pos old] at gone
      exact Option.some_ne_none _ (entry.symm.trans gone)
    have none : pool.byKey.get e.1 = none := OrdMap.get_eq_none.2 fun i mem =>
      key (mem_map_of_mem mem)
    rw [get, DistributedPool.get, none]
    rfl
  have keys : (r.1.entries.map Prod.fst).Nodup := pairwise_map.2 (r.1.sorted.imp ne_of_lt)
  obtain ⟨indexed', count', keep⟩ := foldl_insertJob time r.1.entries r.2 indexed keys absent (by omega)
  refine ⟨indexed', count'.trans (by omega), fun id present needed => ?_⟩
  obtain ⟨job, found⟩ := Option.isSome_iff_exists.1 present
  have entry : ((jobsMap W jobs).get id).isSome = true := by
    obtain ⟨job, mem, eq⟩ := needed
    obtain ⟨i, lt, rfl⟩ := getElem_of_mem mem
    exact jobsMap_get id jobs.zipIdx .empty (.inr ⟨(jobs[i], i), mk_mem_zipIdx_iff_getElem?.2 (by simp), eq⟩)
  obtain ⟨⟨order, new⟩, entry⟩ := Option.isSome_iff_exists.1 entry
  have after : r.2.get id = some { job with order := order } := by
    rw [get, found]
    simp [retainJob, entry]
  have final := keep id _ after
  refine ⟨by rw [final]; rfl, ?_⟩
  rw [stored, final, stored, found]
  rfl

/-! ## Steps and runs -/

section
variable {s : SnarkPoolState P J R F T C}

theorem jobsUpdate_spec (h : WellFormed s) (time : ℕ) (jobs : List T) (orphanedSnarks : List (SnarkWork P R F))
    (few : s.pool.counter + (jobs.length + orphanedSnarks.length) < 2 ^ 64) :
    WellFormed (jobsUpdate W s time jobs orphanedSnarks) ∧
      (jobsUpdate W s time jobs orphanedSnarks).pool.counter ≤
        s.pool.counter + (jobs.length + orphanedSnarks.length) ∧
      ∀ id, (s.pool.get id).isSome = true → (∃ job ∈ jobs, W.idOfJob job = id) →
        ((jobsUpdate W s time jobs orphanedSnarks).pool.get id).isSome = true ∧
        stored (jobsUpdate W s time jobs orphanedSnarks).pool id =
          (orphanedSnarks.filter fun snark => decide (W.jobIdOf snark.work = id)).foldl
            (keepBest (rankOf W)) (stored s.pool id) := by
  obtain ⟨indexed, count, kept⟩ := jobsUpdate_jobs (W := W) h.jobs time jobs (by omega)
  obtain ⟨indexed', count', offered⟩ := foldl_takeOrphan (W := W) orphanedSnarks _ indexed (by omega)
  refine ⟨⟨indexed', h.candidates.retain _⟩, ?_, fun id present needed => ?_⟩
  · exact count'.trans (by omega)
  · obtain ⟨present', same⟩ := kept id present needed
    obtain ⟨present'', eq⟩ := offered id present'
    rw [same] at eq
    exact ⟨present'', eq⟩

/-- **One step** keeps the indexes, and offers the delivered snarks to a job that stays. -/
theorem step_spec (h : WellFormed s) (op : Step P J R F T) (few : s.pool.counter + indices op < 2 ^ 64) :
    WellFormed (step W s op) ∧ (step W s op).pool.counter ≤ s.pool.counter + indices op ∧
      ∀ id, (s.pool.get id).isSome = true → Keeps W id op → ((step W s op).pool.get id).isSome = true ∧
        stored (step W s op).pool id = (deliveries W id op).foldl (keepBest (rankOf W)) (stored s.pool id) := by
  cases op with
  | workAdd time snark sender =>
    have pool := workAdd_pool (W := W) h.jobs time snark sender
    obtain ⟨indexed, offered⟩ := takeOrphan_spec (W := W) h.jobs few ⟨snark, time, sender⟩
    refine ⟨⟨by rw [step, pool]; exact indexed, ?_⟩, ?_, fun id present _ => ?_⟩
    · unfold step workAdd
      dsimp only
      split
      · exact h.candidates.retainColumn _ _
      · exact h.candidates
    · rw [step, pool]
      exact takeOrphan_counter_le _
    · rw [step, pool]
      refine ⟨(offered id).1.trans present, ((offered id).2 present).trans ?_⟩
      rw [deliveries]
      split <;> rfl
  | jobsUpdate time jobs orphanedSnarks => exact jobsUpdate_spec h time jobs orphanedSnarks few
  | candidates op =>
    exact ⟨⟨h.jobs, CandidatesState.apply_consistent W h.candidates op⟩, le_rfl, fun id present _ => ⟨present, rfl⟩⟩

/-- **A run**: the snarks delivered for a job that stays were offered one after the other. -/
theorem run_spec : ∀ (steps : List (Step P J R F T))
    {s : SnarkPoolState P J R F T C}, WellFormed s →
    s.pool.counter + (steps.map indices).sum < 2 ^ 64 →
    WellFormed (run W s steps) ∧ ∀ id, (s.pool.get id).isSome = true → (∀ op ∈ steps, Keeps W id op) →
        ((run W s steps).pool.get id).isSome = true ∧
        stored (run W s steps).pool id =
          (steps.flatMap (deliveries W id)).foldl (keepBest (rankOf W)) (stored s.pool id)
  | [], s, h, _ => ⟨h, fun id present _ => ⟨present, rfl⟩⟩
  | op :: steps, s, h, few => by
    rw [map_cons, sum_cons] at few
    obtain ⟨wf, count, first⟩ := step_spec (W := W) h op (by omega)
    obtain ⟨wf', rest⟩ := run_spec steps wf (by omega)
    refine ⟨wf', fun id present keeps => ?_⟩
    rw [forall_mem_cons] at keeps
    obtain ⟨present', eq⟩ := first id present keeps.1
    obtain ⟨present'', eq'⟩ := rest id present' keeps.2
    rw [eq] at eq'
    exact ⟨present'', by rw [flatMap_cons, foldl_append]; exact eq'⟩

/-! ## Candidates -/

theorem noInferior_prune (consistent : s.candidates.Consistent) : NoInferior W (candidatesPrune W s) := by
  intro peer id candidate snark cell found
  rw [candidatesPrune, consistent.cell_retain, filter_eq_some_iff] at cell
  obtain ⟨-, stays⟩ := cell
  change stored s.pool id = some snark at found
  obtain ⟨job, here, snark'⟩ := Option.bind_eq_some_iff.1 found
  simpa [here, snark'] using stays

theorem NoInferior.workAdd (h : WellFormed s) (clean : NoInferior W s) (time : ℕ) (snark : Snark R F)
    (sender : P) (few : s.pool.counter + 1 < 2 ^ 64) : NoInferior W (workAdd W s time snark sender) := by
  unfold SnarkPool.workAdd
  split
  · intro peer id candidate best cell found
    obtain ⟨-, get⟩ := setSnarkWork_spec (W := W) h.jobs few ⟨snark, time, sender⟩
    dsimp only at cell found
    rw [CandidatesState.removeInferiorSnarks, h.candidates.cell_retainColumn] at cell
    rw [stored, get] at found
    by_cases eq : id = W.jobIdOf snark
    · rw [if_pos eq, filter_eq_some_iff] at cell
      rw [if_pos eq] at found
      obtain ⟨job, there, stored⟩ := Option.bind_eq_some_iff.1 found
      obtain ⟨old, -, rfl⟩ := Option.map_eq_some_iff.1 there
      cases stored
      simpa using cell.2
    · rw [if_neg eq] at cell found
      exact clean peer id candidate best cell found
  · exact clean

theorem NoInferior.run : ∀ (steps : List (Step P J R F T))
    {s : SnarkPoolState P J R F T C}, WellFormed s → NoInferior W s →
    s.pool.counter + (steps.map indices).sum < 2 ^ 64 → (∀ op ∈ steps, op.isDelivery = true) →
    NoInferior W (run W s steps)
  | [], _, _, clean, _, _ => clean
  | op :: steps, s, h, clean, few, deliver => by
    rw [map_cons, sum_cons] at few
    rw [forall_mem_cons] at deliver
    obtain ⟨wf, count, -⟩ := step_spec (W := W) h op (by omega)
    have first : NoInferior W (step W s op) := by
      cases op with
      | workAdd time snark sender =>
        have one : indices (.workAdd time snark sender : Step P J R F T) = 1 := rfl
        exact clean.workAdd h time snark sender (by omega)
      | jobsUpdate time jobs orphanedSnarks => exact noInferior_prune h.candidates
      | candidates op => cases deliver.1
    exact NoInferior.run steps wf first (by omega) deliver.2

/-- **The snark pool converges.**  Two runs that deliver the same snarks for a job that stays
    in the pool, in any order, leave the same snark for it, the best one.  It never gets worse,
    and no inferior candidate is left. -/
theorem run_converges (injective : ∀ job, Function.Injective (W.tieBreakerHash job)) (h : WellFormed s)
    {steps steps' : List (Step P J R F T)} (few : s.pool.counter + (steps.map indices).sum < 2 ^ 64)
    (few' : s.pool.counter + (steps'.map indices).sum < 2 ^ 64) {id : J}
    (present : (s.pool.get id).isSome = true) (keeps : ∀ op ∈ steps, Keeps W id op)
    (keeps' : ∀ op ∈ steps', Keeps W id op)
    (same : (steps.flatMap (deliveries W id)).Perm (steps'.flatMap (deliveries W id))) :
    (stored (run W s steps).pool id).map (fun snark => W.cmpOfSnark snark.work) =
        (stored (run W s steps').pool id).map (fun snark => W.cmpOfSnark snark.work) ∧
      IsBest (rankOf W) ((stored s.pool id).toList ++ steps.flatMap (deliveries W id))
        (stored (run W s steps).pool id) ∧
      (∀ steps₁ steps₂, steps = steps₁ ++ steps₂ → ∀ snark, stored (run W s steps₁).pool id = some snark →
        ∃ snark', stored (run W s steps).pool id = some snark' ∧ rankOf W snark ≤ rankOf W snark') ∧
      (NoInferior W s → (∀ op ∈ steps, op.isDelivery = true) → NoInferior W (run W s steps)) := by
  have eq := ((run_spec steps h few).2 id present keeps).2
  have eq' := ((run_spec steps' h few').2 id present keeps').2
  have start : IsBest (rankOf W) (stored s.pool id).toList (stored s.pool id) := isBest_toList _
  have best := start.foldl (steps.flatMap (deliveries W id))
  have best' := start.foldl (steps'.flatMap (deliveries W id))
  rw [← eq] at best
  rw [← eq'] at best'
  refine ⟨?_, best, fun steps₁ steps₂ split snark found => ?_, fun clean deliver =>
    clean.run steps h few deliver⟩
  · have ranks := best.rank_eq best' fun x => by simp [same.mem_iff]
    have cmps : ((stored (run W s steps).pool id).map fun snark => W.cmpOfSnark snark.work).map W.rank =
        ((stored (run W s steps').pool id).map fun snark => W.cmpOfSnark snark.work).map W.rank := by
      rw [Option.map_map, Option.map_map]
      exact ranks
    exact Option.map_injective (Params.rank_injective injective) cmps
  · subst split
    rw [map_append, sum_append] at few
    have before := run_spec (W := W) steps₁ h (by omega)
    have keeps₁ : ∀ op ∈ steps₁, Keeps W id op := fun op mem => keeps op (mem_append_left _ mem)
    rw [((run_spec (steps₁ ++ steps₂) h (by rw [map_append, sum_append]; omega)).2 id present keeps).2,
      flatMap_append, foldl_append, ← (before.2 id present keeps₁).2, found]
    exact rank_le_foldl _ snark

end

end

/-! ## Two small pools -/

def numbered : Params ℕ ℕ (ℕ × ℕ) ℕ ℕ := ⟨Prod.fst, id, fun _ prover => prover⟩

def twoJobs : SnarkPoolState ℕ ℕ ℕ (ℕ × ℕ) ℕ Unit := step numbered .new (.jobsUpdate 0 [1, 2] [])

theorem twoJobs_wellFormed : WellFormed twoJobs :=
  (step_spec ⟨DistributedPool.Indexed.empty, .empty⟩ _ (by decide)).1

/-- A cheaper snark by gossip and a dearer one by a `JobsUpdate`, in both orders. -/
theorem run_converges_both_orders :
    (stored (run numbered twoJobs [.workAdd 1 ⟨8, 5, (1, 0)⟩ 3, .jobsUpdate 2 [1, 2] [⟨⟨9, 7, (1, 0)⟩, 0, 4⟩]]).pool
        1).map (fun snark => snark.work.fee) = some 5 ∧
      (stored (run numbered twoJobs [.workAdd 1 ⟨8, 5, (1, 0)⟩ 3, .jobsUpdate 2 [1, 2] [⟨⟨9, 7, (1, 0)⟩, 0, 4⟩]]).pool
        1).map (fun snark => numbered.cmpOfSnark snark.work) =
      (stored (run numbered twoJobs [.jobsUpdate 2 [1, 2] [⟨⟨9, 7, (1, 0)⟩, 0, 4⟩], .workAdd 1 ⟨8, 5, (1, 0)⟩ 3]).pool
        1).map (fun snark => numbered.cmpOfSnark snark.work) :=
  ⟨by decide, And.left (run_converges (fun _ _ _ eq => eq) twoJobs_wellFormed (by decide) (by decide)
    (by decide) (by simp [Keeps, numbered]) (by simp [Keeps, numbered]) (by exact List.Perm.swap _ _ []))⟩

/-- Two snarks that differ in their proofs only: the first one delivered stays. -/
theorem proofs_depend_on_order :
    (stored (run numbered twoJobs [.workAdd 1 ⟨8, 5, (1, 100)⟩ 3, .workAdd 2 ⟨8, 5, (1, 200)⟩ 3]).pool
        1).map (fun snark => snark.work) = some ⟨8, 5, (1, 100)⟩ ∧
      (stored (run numbered twoJobs [.workAdd 2 ⟨8, 5, (1, 200)⟩ 3, .workAdd 1 ⟨8, 5, (1, 100)⟩ 3]).pool
        1).map (fun snark => snark.work) = some ⟨8, 5, (1, 200)⟩ := by
  decide

end MinaRust.SnarkPool
