/-
  Sequence numbers (`incr_sequence_no`, `reset_seq_no`).

  When the numbers reach the end of `u64` all jobs are renumbered, the oldest one becoming
  number one.  `Sequenced` says why that never underflows: the data are numbered in the order
  in which they came, and a job is at least as new as some datum of its tree.
-/
import MinaRust.ParallelScan.Count

namespace MinaRust.ParallelScan

open List PTree

variable {B M : Type} {h k D : ℕ}

/-! ## Renumbering a tree -/

variable (o : ℕ)

def Base.Job.renumber : Base.Job B → Base.Job B
  | .empty => .empty
  | .full r => .full { r with seqNo := r.seqNo - o + 1 }

def Merge.Job.renumber : Merge.Job M → Merge.Job M
  | .full r => .full { r with seqNo := r.seqNo - o + 1 }
  | m => m

def renumber (o : ℕ) (t : ScanTree B M h) : ScanTree B M h :=
  t.map (fun b => ⟨b.weight, b.job.renumber o⟩) (fun m => ⟨m.weight, m.job.renumber o⟩)

theorem renumber_node (m : Merge M) (l r : ScanTree B M h) :
    renumber o (.node m l r) = .node ⟨m.weight, m.job.renumber o⟩ (renumber o l) (renumber o r) := rfl

theorem renumberTree_flat {o : ℕ} {t : ScanTree B M h}
    (ht : SeqAll (o ≤ ·) (jobs t)) : renumberTree o (flat t) = .ok (flat (renumber o t)) := by
  have hvalue : ∀ v ∈ (flat t).values, renumberValue o v =
      .ok (v.elim (fun b => .leaf ⟨b.weight, b.job.renumber o⟩)
        (fun m => .node ⟨m.weight, m.job.renumber o⟩)) := by
    refine forall_mem_bfs fun u hu => ?_
    rw [mem_singleton.1 hu]
    refine PTree.All.imp ?_ ?_ (PTree.all_map.1 ht)
    · rintro ⟨w, _ | r⟩ hb
      · rfl
      · simp only [renumberValue, checkedSub_of_le (hb r rfl), ok_bind]; rfl
    · rintro ⟨w, _ | a | r⟩ hm
      · rfl
      · rfl
      · simp only [renumberValue, checkedSub_of_le (hm r rfl), ok_bind]; rfl
  rw [renumberTree, mapM_eq_ok hvalue]
  refine congrArg (fun vs => Except.ok (Tree.mk vs)) ?_
  exact (bfs_map _ _ _ [t]).trans (map_bfs (fun b : Base B => (⟨b.weight, b.job.renumber o⟩ : Base B))
    (fun m : Merge M => (⟨m.weight, m.job.renumber o⟩ : Merge M))
    (fun _ => Value.leaf) (fun _ => Value.node) [t]).symm

section
variable {o : ℕ}

variable {b : Base.Job B}

@[simp] theorem Base.Job.isTodo_renumber : (b.renumber o).IsTodo ↔ b.IsTodo := by
  rcases b with _ | ⟨job, n, _ | _⟩ <;> simp [Base.Job.renumber, Base.Job.IsTodo]

@[simp] theorem Base.Job.isDone_renumber : (b.renumber o).IsDone ↔ b.IsDone := by
  rcases b with _ | ⟨job, n, _ | _⟩ <;> simp [Base.Job.renumber, Base.Job.IsDone]

variable {m : Merge.Job M}

@[simp] theorem Merge.Job.isTodo_renumber : (m.renumber o).IsTodo ↔ m.IsTodo := by
  rcases m with _ | a | ⟨a, b, n, _ | _⟩ <;> simp [Merge.Job.renumber, Merge.Job.IsTodo]

@[simp] theorem Merge.Job.isDone_renumber : (m.renumber o).IsDone ↔ m.IsDone := by
  rcases m with _ | a | ⟨a, b, n, _ | _⟩ <;> simp [Merge.Job.renumber, Merge.Job.IsDone]

@[simp] theorem Merge.Job.renumber_eq_empty : m.renumber o = .empty ↔ m = .empty := by
  rcases m with _ | a | r <;> simp [Merge.Job.renumber]

@[simp] theorem Base.Job.renumber_eq_empty : b.renumber o = .empty ↔ b = .empty := by
  rcases b with _ | r <;> simp [Base.Job.renumber]

@[simp] theorem pairJob_renumber {c : ℕ} : PairJob c (m.renumber o) ↔ PairJob c m := by
  rcases m with _ | a | ⟨a, b, n, _ | _⟩ <;> simp [PairJob, Merge.Job.renumber, Merge.Job.IsTodo]

theorem jobs_renumber (t : ScanTree B M h) :
    jobs (renumber o t) = (jobs t).map (Base.Job.renumber o) (Merge.Job.renumber o) := by
  induction t with
  | leaf b => rfl
  | node m l r ihl ihr => rw [renumber_node, jobs_node, ihl, ihr]; rfl

variable {t : ScanTree B M h}

theorem allDone_renumber : AllDone (jobs (renumber o t)) ↔ AllDone (jobs t) := by
  rw [jobs_renumber, AllDone, PTree.all_map]
  simp only [Base.Job.isDone_renumber, Merge.Job.isDone_renumber]
  rfl

theorem shape_renumber {j : ℕ} : ∀ {h c : ℕ} {t : ScanTree B M h},
    Shape j c (jobs (renumber o t)) ↔ Shape j c (jobs t) := by
  intro h
  induction h with
  | zero =>
    intro c t
    cases t with
    | leaf b =>
      exact or_congr (and_congr_right fun _ => Base.Job.isTodo_renumber)
        (and_congr_right fun _ => Base.Job.isDone_renumber)
  | succ h ih =>
    intro c t
    cases t with
    | node m l r =>
      rw [renumber_node, jobs_node, jobs_node, Shape, Shape]
      simp [ih, allDone_renumber, Merge.Job.isTodo_renumber, Merge.Job.isDone_renumber, pairJob_renumber, Merge.Job.renumber_eq_empty]

theorem filling_renumber : ∀ {h f : ℕ} {t : ScanTree B M h},
    Filling f (jobs (renumber o t)) ↔ Filling f (jobs t) := by
  intro h
  induction h with
  | zero =>
    intro f t
    cases t with
    | leaf b =>
      exact or_congr (and_congr_right fun _ => Base.Job.renumber_eq_empty)
        (and_congr_right fun _ => Base.Job.isTodo_renumber)
  | succ h ih =>
    intro f t
    cases t with
    | node m l r =>
      rw [renumber_node, jobs_node, jobs_node, Filling, Filling]
      simp [ih, Merge.Job.renumber_eq_empty]

theorem weighted_renumber {j : ℕ} : ∀ {h c : ℕ} {t : ScanTree B M h},
    Weighted j c (renumber o t) ↔ Weighted j c t := by
  intro h
  induction h with
  | zero => intro c t; cases t; exact Iff.rfl
  | succ h ih =>
    intro c t
    cases t with
    | node m l r => rw [renumber_node, Weighted, Weighted]; simp only [ih]

theorem spaceWeighted_renumber : ∀ {h f : ℕ} {t : ScanTree B M h},
    SpaceWeighted f (renumber o t) ↔ SpaceWeighted f t := by
  intro h
  induction h with
  | zero => intro f t; cases t; exact Iff.rfl
  | succ h ih =>
    intro f t
    cases t with
    | node m l r => rw [renumber_node, SpaceWeighted, SpaceWeighted]; simp only [ih]

theorem todoAt_renumber (j : ℕ) (t : ScanTree B M h) :
    todoAt j (jobs (renumber o t)) = todoAt j (jobs t) := by
  have hb : (fun b : Base.Job B => ((b.renumber o).todo : List (AvailableJob B M))) = Base.Job.todo := by
    funext b; rcases b with _ | ⟨job, n, _ | _⟩ <;> rfl
  have hm : (fun m : Merge.Job M => ((m.renumber o).todo : List (AvailableJob B M))) = Merge.Job.todo := by
    funext m; rcases m with _ | a | ⟨a, b, n, _ | _⟩ <;> rfl
  rw [jobs_renumber, todoAt, row_map, hb, hm]
  rfl

theorem leafEntries_renumber (t : ScanTree B M h) : leafEntries (jobs (renumber o t)) =
      (leafEntries (jobs t)).map fun e => (e.1, e.2 - o + 1) := by
  induction t with
  | leaf b =>
    obtain ⟨w, _ | r⟩ := b <;>
      simp [renumber, PTree.map, leafEntries, Base.Job.renumber, Base.Job.entry]
  | node m l r ihl ihr =>
    rw [leafEntries, leafEntries] at ihl ihr
    rw [renumber_node, leafEntries, jobs_node, leafRow_node, ihl, ihr, leafEntries, jobs_node,
      leafRow_node, map_append]

theorem leafData_renumber (t : ScanTree B M h) : leafData (jobs (renumber o t)) = leafData (jobs t) := by
  rw [leafData_eq, leafEntries_renumber, map_map, leafData_eq]
  rfl

theorem values_renumber {val : B → M} {op : M → M → M} (t : ScanTree B M h) :
    Values val op (jobs (renumber o t)) ↔ Values val op (jobs t) := by
  induction t with
  | leaf b => exact Iff.rfl
  | node m l r ihl ihr =>
    rw [renumber_node, jobs_node, jobs_node, values_node, ihl, ihr, leafData_renumber, leafData_renumber]
    rcases m with ⟨w, _ | a | r⟩ <;> exact Iff.rfl

theorem seqAll_renumber {P : ℕ → Prop} :
    SeqAll P (jobs (renumber o t)) ↔ SeqAll (fun n => P (n - o + 1)) (jobs t) := by
  rw [jobs_renumber, SeqAll, PTree.all_map, SeqAll]
  have hb : ∀ b : Base.Job B, (∀ r, b.renumber o = .full r → P r.seqNo) ↔
      ∀ r, b = .full r → P (r.seqNo - o + 1) := by
    rintro (_ | r) <;> simp [Base.Job.renumber]
  have hm : ∀ m : Merge.Job M, (∀ r, m.renumber o = .full r → P r.seqNo) ↔
      ∀ r, m = .full r → P (r.seqNo - o + 1) := by
    rintro (_ | a | r) <;> simp [Merge.Job.renumber]
  simp only [hb, hm]

end

/-! ## Trees alike up to their numbers -/

/-- Two trees with the same weights and jobs, up to sequence numbers. -/
structure Alike (t t' : ScanTree B M h) : Prop where
  shape : ∀ j c, Shape j c (jobs t') ↔ Shape j c (jobs t)
  filling : ∀ f, Filling f (jobs t') ↔ Filling f (jobs t)
  weighted : ∀ j c, Weighted j c t' ↔ Weighted j c t
  space : ∀ f, SpaceWeighted f t' ↔ SpaceWeighted f t
  todo : ∀ j, todoAt j (jobs t') = todoAt j (jobs t)
  data : leafData (jobs t') = leafData (jobs t)
  values : ∀ (val : B → M) op, Values val op (jobs t') ↔ Values val op (jobs t)
  counts : counts (jobs t') = counts (jobs t)

variable (t : ScanTree B M h)

theorem Alike.refl : Alike t t :=
  ⟨fun _ _ => Iff.rfl, fun _ => Iff.rfl, fun _ _ => Iff.rfl, fun _ => Iff.rfl, fun _ => rfl, rfl,
    fun _ _ => Iff.rfl, rfl⟩

theorem counts_renumber : counts (jobs (renumber o t)) = counts (jobs t) := by
  have hb : (fun b : Base.Job B => (b.renumber o).count) = Base.Job.count := by
    funext b; rcases b with _ | ⟨job, n, _ | _⟩ <;> rfl
  have hm : (fun m : Merge.Job M => (m.renumber o).count) = Merge.Job.count := by
    funext m; rcases m with _ | a | ⟨a, b, n, _ | _⟩ <;> rfl
  rw [jobs_renumber, counts, total_map, hb, hm]
  rfl

theorem alike_renumber : Alike t (renumber o t) :=
  ⟨fun _ _ => shape_renumber, fun _ => filling_renumber, fun _ _ => weighted_renumber,
    fun _ => spaceWeighted_renumber, fun j => todoAt_renumber j t, leafData_renumber t,
    fun _ _ => values_renumber t, counts_renumber o t⟩

section
variable {ts ts' : List (ScanTree B M k)}

theorem Busy.alike (hs : List.Forall₂ Alike ts ts') : ∀ {i q : ℕ}, Busy k D i q ts → Busy k D i q ts' := by
  induction hs with
  | nil => exact fun _ => trivial
  | cons hu _ ih => exact fun ⟨h₁, h₂, h₃⟩ => ⟨(hu.shape ..).2 h₁, (hu.weighted ..).2 h₂, ih h₃⟩

theorem Period.alike (hs : List.Forall₂ Alike ts ts') {q : ℕ} (hp : Period k D q ts) : Period k D q ts' := by
  have hlen := hs.length_eq
  refine ⟨hlen ▸ hp.length, hlen ▸ hp.le, fun h => ?_, fun h => ?_⟩
  · exact (hp.busy (hlen ▸ h)).alike hs
  · rw [← hlen] at h ⊢
    exact ⟨(hp.idle h).1, (hp.idle h).2.alike hs⟩

theorem workFrom_alike (hs : List.Forall₂ Alike ts ts') : ∀ i : ℕ, workFrom k D i ts' = workFrom k D i ts := by
  induction hs with
  | nil => exact fun _ => rfl
  | cons hu _ ih => intro i; rw [workFrom, workFrom, hu.todo, ih]

theorem countsOf_alike (hs : List.Forall₂ Alike ts ts') : countsOf ts' = countsOf ts := by
  induction hs with
  | nil => rfl
  | cons hu _ ih => rw [countsOf_cons, countsOf_cons, hu.counts, ih]

theorem values_alike (hs : List.Forall₂ Alike ts ts') {val : B → M} {op : M → M → M}
    (hv : ∀ t ∈ ts, Values val op (jobs t)) : ∀ t ∈ ts', Values val op (jobs t) := by
  induction hs with
  | nil => exact hv
  | cons hu _ ih =>
    rw [forall_mem_cons] at hv ⊢
    exact ⟨(hu.values ..).2 hv.1, ih hv.2⟩

end

/-! ## The order of the numbers -/

/-- The data of the trees with their numbers, in the order in which they came. -/
def allEntries (t : ScanTree B M k) (ts : List (ScanTree B M k)) : List (B × ℕ) :=
  (ts.map fun t => leafEntries (jobs t)).reverse.flatten ++ leafEntries (jobs t)

def allData (t : ScanTree B M k) (ts : List (ScanTree B M k)) : List B :=
  (allEntries t ts).map Prod.fst

/-- Every job is at least as new as some datum of its tree. -/
def Dated (t : JobTree B M h) : Prop := SeqAll (fun n => ∃ e ∈ leafEntries t, e.2 ≤ n) t

/-- The numbers of a scan whose last update has number `n`. -/
structure Sequenced (n : ℕ) (t : ScanTree B M k)
    (ts : List (ScanTree B M k)) : Prop where
  sorted : (allEntries t ts).Pairwise fun a b => a.2 ≤ b.2
  le : ∀ e ∈ allEntries t ts, e.2 ≤ n
  dated : ∀ u ∈ t :: ts, Dated (jobs u)
  full : ∀ u ∈ ts, (leafEntries (jobs u)).length = 2 ^ k

theorem SeqAll.imp {P Q : ℕ → Prop} (hPQ : ∀ n, P n → Q n) {t : JobTree B M h} (ht : SeqAll P t) : SeqAll Q t :=
  PTree.All.imp (fun _ hb r hr => hPQ _ (hb r hr)) (fun _ hm r hr => hPQ _ (hm r hr)) ht

section
variable {t : ScanTree B M k} {ts : List (ScanTree B M k)} {n o : ℕ}

theorem mem_allEntries {e : B × ℕ} : e ∈ allEntries t ts ↔ ∃ u ∈ t :: ts, e ∈ leafEntries (jobs u) := by
  simp [allEntries, or_comm]

theorem allEntries_renumber : allEntries (renumber o t) (ts.map (renumber o)) =
    (allEntries t ts).map fun e => (e.1, e.2 - o + 1) := by
  rw [allEntries, allEntries, map_append, map_flatten, map_reverse, map_map, map_map]
  simp [Function.comp_def, leafEntries_renumber]

theorem allEntries_last (t : ScanTree B M k) (ts : List (ScanTree B M k)) :
    ∃ rest, allEntries t ts = leafEntries (jobs (ts.getLastD t)) ++ rest := by
  rcases eq_nil_or_concat' ts with rfl | ⟨init, u, rfl⟩
  · exact ⟨[], by simp [allEntries]⟩
  · exact ⟨(init.map fun t => leafEntries (jobs t)).reverse.flatten ++ leafEntries (jobs t), by
      simp [allEntries]⟩

theorem leafEntries_eq (t : JobTree B M h) : leafEntries t = (leafRecords t).map fun r => (r.job, r.seqNo) := by
  induction t with
  | leaf b => rcases b with _ | r <;> simp [leafEntries, leafRecords, Base.Job.entry, Base.Job.record]
  | node m l r ihl ihr =>
    rw [leafEntries, leafRecords] at ihl ihr
    rw [leafEntries, leafRecords, leafRow_node, leafRow_node, map_append, ihl, ihr]

def oldestSeqNo (t : ScanTree B M k) (ts : List (ScanTree B M k)) : ℕ :=
  (leafRecords (jobs (ts.getLastD t))).head?.elim 0 fun r => r.seqNo

theorem Sequenced.oldest_le (hq : Sequenced n t ts) : ∀ e ∈ allEntries t ts, oldestSeqNo t ts ≤ e.2 := by
  intro e he
  obtain ⟨rest, hrest⟩ := allEntries_last t ts
  have hsorted := hq.sorted
  rw [leafEntries_eq] at hrest
  rw [hrest] at hsorted he
  rw [oldestSeqNo]
  rcases hl : leafRecords (jobs (ts.getLastD t)) with _ | ⟨r, rs⟩
  · exact Nat.zero_le _
  · rw [hl] at hsorted he
    rcases mem_cons.1 he with rfl | he
    · exact le_rfl
    · exact (pairwise_cons.1 hsorted).1 e he

variable {u : ScanTree B M k}

theorem Sequenced.seqAll (hq : Sequenced n t ts) (hu : u ∈ t :: ts) :
    SeqAll (oldestSeqNo t ts ≤ ·) (jobs u) := by
  refine (hq.dated u hu).imp ?_
  rintro m ⟨e, he, hle⟩
  exact (hq.oldest_le e (mem_allEntries.2 ⟨u, hu, he⟩)).trans hle

theorem foldl_maxSeq : ∀ (us : List (ScanTree B M k)) (m : ℕ),
    let r := (us.map flat).foldl (fun maxSeq tree =>
      tree.leaves.getLast?.elim maxSeq fun r => max maxSeq r.seqNo) m
    m ≤ r ∧ ∀ u ∈ us, ∀ x, (leafRecords (jobs u)).getLast? = some x → x.seqNo ≤ r
  | [], m => by simp
  | u :: us, m => by
    have ih := foldl_maxSeq us
    rw [map_cons, foldl_cons, leaves_flat]
    rcases hx : (leafRecords (jobs u)).getLast? with _ | x
    · obtain ⟨h₁, h₂⟩ := ih m
      refine ⟨h₁, ?_⟩
      rw [forall_mem_cons]
      refine ⟨fun y hy => ?_, h₂⟩
      rw [hx] at hy; cases hy
    · obtain ⟨h₁, h₂⟩ := ih (max m x.seqNo)
      refine ⟨(le_max_left ..).trans h₁, ?_⟩
      rw [forall_mem_cons]
      refine ⟨fun y hy => ?_, h₂⟩
      rw [hx] at hy; cases hy
      exact (le_max_right ..).trans h₁

theorem le_last (hsorted : (allEntries t ts).Pairwise fun a b => a.2 ≤ b.2) (hu : u ∈ t :: ts) {e : B × ℕ}
    (he : e ∈ leafEntries (jobs u)) : ∃ x, (leafRecords (jobs u)).getLast? = some x ∧ e.2 ≤ x.seqNo := by
  have hsub : (leafEntries (jobs u)).Pairwise fun a b => a.2 ≤ b.2 := by
    refine hsorted.sublist ?_
    rcases mem_cons.1 hu with rfl | hu
    · exact sublist_append_right ..
    · refine List.Sublist.trans ?_ (sublist_append_left ..)
      exact sublist_flatten_of_mem (mem_reverse.2 (mem_map.2 ⟨u, hu, rfl⟩))
  rw [leafEntries_eq] at hsub he
  rcases eq_nil_or_concat' (leafRecords (jobs u)) with hnil | ⟨init, x, hx⟩
  · rw [hnil] at he; cases he
  · rw [hx, map_append] at hsub he
    refine ⟨x, by rw [hx]; simp, ?_⟩
    rcases mem_append.1 he with he | he
    · exact (pairwise_append.1 hsub).2.2 e he (x.job, x.seqNo) (by simp)
    · rw [map_singleton, mem_singleton] at he
      rw [he]

theorem Dated.renumber {u : ScanTree B M k} (hu : Dated (jobs u)) : Dated (jobs (renumber o u)) := by
  rw [Dated, seqAll_renumber]
  refine SeqAll.imp ?_ hu
  rintro m ⟨e, he, hle⟩
  refine ⟨(e.1, e.2 - o + 1), ?_, by dsimp only; omega⟩
  rw [leafEntries_renumber]
  exact mem_map.2 ⟨e, he, rfl⟩

theorem Sequenced.renumber (hq : Sequenced n t ts) {m : ℕ}
    (hm : ∀ u ∈ ParallelScan.renumber o t :: ts.map (ParallelScan.renumber o), ∀ x, (leafRecords (jobs u)).getLast? = some x → x.seqNo ≤ m) :
    Sequenced m (ParallelScan.renumber o t) (ts.map (ParallelScan.renumber o)) := by
  have hsorted : (allEntries (ParallelScan.renumber o t) (ts.map (ParallelScan.renumber o))).Pairwise
      fun a b => a.2 ≤ b.2 := by
    rw [allEntries_renumber, pairwise_map]
    exact hq.sorted.imp fun h => by omega
  refine ⟨hsorted, fun e he => ?_, ?_, ?_⟩
  · obtain ⟨u, hu, he⟩ := mem_allEntries.1 he
    obtain ⟨x, hx, hle⟩ := le_last hsorted hu he
    exact hle.trans (hm u hu x hx)
  · intro u hu
    rw [← map_cons, mem_map] at hu
    obtain ⟨u', hu', rfl⟩ := hu
    exact (hq.dated u' hu').renumber
  · intro u hu
    obtain ⟨u', hu', rfl⟩ := mem_map.1 hu
    rw [leafEntries_renumber, length_map]
    exact hq.full u' hu'

theorem getLastD_map_flat : (ts.map flat).getLastD (flat t) = flat (ts.getLastD t) := by
  rcases eq_nil_or_concat' ts with rfl | ⟨init, u, rfl⟩ <;> simp

theorem forall₂_alike_renumber (o : ℕ) : ∀ ts : List (ScanTree B M k),
    List.Forall₂ Alike ts (ts.map (renumber o))
  | [] => .nil
  | u :: us => .cons (alike_renumber o u) (forall₂_alike_renumber o us)

/-- **The next sequence number**: all trees stay as they are, up to their
    numbers. -/
theorem incrSequenceNo_flat {s : ParallelScan B M} (hs : Represents s D t ts)
    (hq : Sequenced s.currJobSeqNo t ts) :
    ∃ s' t' ts', s.incrSequenceNo = .ok s' ∧ Represents s' D t' ts' ∧
      Sequenced s'.currJobSeqNo t' ts' ∧ Alike t t' ∧ List.Forall₂ Alike ts ts' := by
  unfold incrSequenceNo
  dsimp only
  split_ifs with hmax
  · set o := oldestSeqNo t ts
    have hrenumber : ∀ u ∈ t :: ts, renumberTree o (flat u) = .ok (flat (renumber o u)) :=
      fun u hu => renumberTree_flat (hq.seqAll hu)
    rw [forall_mem_cons] at hrenumber
    have hold : ((flat (ts.getLastD t)).leaves.head?.elim 0 fun r => r.seqNo) = o := by
      rw [leaves_flat]; rfl
    obtain ⟨-, hm⟩ := foldl_maxSeq (renumber o t :: ts.map (renumber o)) 0
    have hreset : s.resetSeqNo = .ok { s with
        currTree := flat (renumber o t)
        olderTrees := (ts.map (renumber o)).map flat
        currJobSeqNo := ((renumber o t :: ts.map (renumber o)).map flat).foldl
          (fun maxSeq tree => tree.leaves.getLast?.elim maxSeq fun r => max maxSeq r.seqNo) 0 } := by
      rw [resetSeqNo, hs.curr, hs.older, getLastD_map_flat, hold, hrenumber.1, mapM_map, mapM_eq_ok (f := renumberTree o ∘ flat) hrenumber.2, map_cons, map_map]
      rfl
    exact ⟨_, renumber o t, ts.map (renumber o), hreset, ⟨rfl, rfl, hs.maxBaseJobs, hs.delay⟩,
      hq.renumber hm, alike_renumber o t, forall₂_alike_renumber o ts⟩
  · refine ⟨_, t, ts, rfl, ⟨hs.curr, hs.older, hs.maxBaseJobs, hs.delay⟩,
      ⟨hq.sorted, fun e he => (hq.le e he).trans (Nat.le_succ _), hq.dated, hq.full⟩, .refl t, ?_⟩
    exact forall₂_same.2 fun u _ => .refl u

end

end MinaRust.ParallelScan
