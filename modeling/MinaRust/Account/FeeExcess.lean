/-
  Fee excesses (`scan_state/fee_excess.rs`): the fees that a stretch of transactions has taken
  and not yet handed out, in at most two tokens.

  On integers the excess of a stretch leads from the fees open before it to those open after
  it (`Pair.Spans`).  So the order in which a scan tree merges does not matter, as long as a new
  token comes only when nothing is open in the last one.
-/
import MinaRust.Account.Currency
import MinaRust.Lib.Checked

namespace MinaRust.Account

open List

variable {T : Type} [DecidableEq T]

structure FeeExcess (T : Type) where
  feeTokenL : T
  feeExcessL : Signed
  feeTokenR : T
  feeExcessR : Signed
  deriving DecidableEq, Repr

namespace FeeExcess

inductive Error (T : Type)
  /-- "Error adding fees: overflow" -/
  | rebalance
  /-- "Error adding fees: Overflow" -/
  | eliminate
  /-- "Error eliminating fee excess: Excess for token .. was nonzero" -/
  | nonzero (token : T) (excess : Signed)
  /-- `StagedLedgerError::NonZeroFeeExcess` -/
  | nonZeroFeeExcess

section Model
variable [Inhabited T]

def empty : FeeExcess T := ⟨default, ⟨0, .pos⟩, default, ⟨0, .pos⟩⟩

def isZero (e : FeeExcess T) : Bool :=
  e.feeTokenL = default ∧ e.feeTokenR = default ∧ e.feeExcessL.magnitude = 0 ∧ e.feeExcessR.magnitude = 0

def ofSingle (x : T × Signed) : FeeExcess T := ⟨x.1, x.2, default, ⟨0, .pos⟩⟩

def rebalance (e : FeeExcess T) : Except (Error T) (FeeExcess T) := do
  let feeTokenL := if e.feeExcessL.magnitude = 0 then e.feeTokenR else e.feeTokenL
  let (feeExcessL, feeExcessR) ←
    if feeTokenL = e.feeTokenR then do
      let sum ← okOr .rebalance (e.feeExcessL.add e.feeExcessR)
      pure (sum, ⟨0, .pos⟩)
    else pure (e.feeExcessL, e.feeExcessR)
  pure ⟨if feeExcessL.magnitude = 0 then default else feeTokenL, feeExcessL,
    if feeExcessR.magnitude = 0 then default else e.feeTokenR, feeExcessR⟩

/-- The excess `m` goes to the left or to the right, unless it is zero. -/
def eliminateFeeExcess (l m r : T × Signed) : Except (Error T) ((T × Signed) × (T × Signed)) :=
  if l.1 = m.1 ∨ l.2.magnitude = 0 then do
    let sum ← okOr .eliminate (l.2.add m.2)
    pure ((m.1, sum), r)
  else if r.1 = m.1 ∨ r.2.magnitude = 0 then do
    let sum ← okOr .eliminate (r.2.add m.2)
    pure (l, (m.1, sum))
  else if m.2.magnitude = 0 then pure (l, r)
  else throw (.nonzero m.1 m.2)

def combine (e₁ e₂ : FeeExcess T) : Except (Error T) (FeeExcess T) := do
  let (l, m) ← eliminateFeeExcess (e₁.feeTokenL, e₁.feeExcessL) (e₁.feeTokenR, e₁.feeExcessR)
    (e₂.feeTokenL, e₂.feeExcessL)
  let (l, r) ← eliminateFeeExcess l m (e₂.feeTokenR, e₂.feeExcessR)
  rebalance ⟨l.1, l.2, r.1, r.2⟩

/-- `check_zero_fee_excess`, for the transactions of one partition. -/
def checkZeroFeeExcess (txns : List (FeeExcess T)) : Except (Error T) Unit := do
  let feeExcess ← txns.foldlM combine empty
  ensure .nonZeroFeeExcess feeExcess.isZero

/-- What comes of merging neighbours in some order, as `Statement::merge` does. -/
inductive Merged : List (FeeExcess T) → Except (Error T) (FeeExcess T) → Prop
  | leaf (e : FeeExcess T) : Merged [e] (.ok e)
  | node {xs ys : List (FeeExcess T)} {a b : Except (Error T) (FeeExcess T)} (left : Merged xs a)
      (right : Merged ys b) : Merged (xs ++ ys) (do combine (← a) (← b))

end Model

/-! ## Excesses as integers -/

abbrev Pair (T : Type) := (T × ℤ) × (T × ℤ)

namespace Pair

def eliminate (l m r : T × ℤ) : Option (Pair T) :=
  if l.1 = m.1 ∨ l.2 = 0 then some ((m.1, l.2 + m.2), r)
  else if r.1 = m.1 ∨ r.2 = 0 then some (l, (m.1, r.2 + m.2))
  else if m.2 = 0 then some (l, r) else none

/-- The total in a token. -/
def held (p : Pair T) (t : T) : ℤ := (if p.1.1 = t then p.1.2 else 0) + if p.2.1 = t then p.2.2 else 0

/-- **The canonical form**: a lone excess is on the left, a zero one has the default token, and
    the tokens of two differ. -/
structure Tidy [Inhabited T] (p : Pair T) : Prop where
  left : p.1.2 = 0 → p.1.1 = default ∧ p.2.2 = 0
  right : p.2.2 = 0 → p.2.1 = default
  apart : p.2.2 ≠ 0 → p.1.1 ≠ p.2.1

structure Balances [Inhabited T] (p p' : Pair T) : Prop extends Tidy p' where
  held : ∀ t, p'.held t = p.held t
  same : p'.2.2 ≠ 0 → p' = p

def Merges [Inhabited T] (p q c : Pair T) : Prop :=
  ∃ e e', eliminate p.1 p.2 q.1 = some e ∧ eliminate e.1 e.2 q.2 = some e' ∧ Balances e' c

def Stuck (p q : Pair T) : Prop :=
  eliminate p.1 p.2 q.1 = none ∨ ∃ e, eliminate p.1 p.2 q.1 = some e ∧ eliminate e.1 e.2 q.2 = none

theorem held_eliminate {l m r : T × ℤ} {p : Pair T} (done : eliminate l m r = some p) (t : T) :
    p.held t = (if l.1 = t then l.2 else 0) + (if m.1 = t then m.2 else 0) + if r.1 = t then r.2 else 0 := by
  grind [eliminate, held]

theorem eliminate_eq_none {l m r : T × ℤ} :
    eliminate l m r = none ↔ l.1 ≠ m.1 ∧ l.2 ≠ 0 ∧ r.1 ≠ m.1 ∧ r.2 ≠ 0 ∧ m.2 ≠ 0 := by
  grind [eliminate]

variable {p q c : Pair T}

theorem Merges.held_eq [Inhabited T] (merges : Merges p q c) (t : T) : c.held t = p.held t + q.held t := by
  obtain ⟨e, e', first, second, balances⟩ := merges
  have h₁ := held_eliminate first t
  have h₂ := held_eliminate second t
  have h₃ := balances.held t
  simp only [held] at *
  omega

theorem Merges.tidy [Inhabited T] (merges : Merges p q c) : c.Tidy := by
  obtain ⟨_, _, -, -, balances⟩ := merges
  exact balances.toTidy

/-- **A pair leads from the fees open at one place to those open at another**, in the order of
    the places. -/
structure Spans (b b' : T × ℤ) (p : Pair T) : Prop where
  held : ∀ t, p.held t = (if b'.1 = t then b'.2 else 0) - if b.1 = t then b.2 else 0
  order : p.2.2 ≠ 0 → p.1.2 ≠ 0 ∧ p.1.1 = b.1 ∧ p.2.1 = b'.1 ∧ b.1 ≠ b'.1

variable {b b₀ b₁ b₂ : T × ℤ}

theorem Spans.cases {b' : T × ℤ} (hp : Spans b b' p) :
    p.2.2 = 0 ∧ p.1.2 = 0 ∧ (b.1 = b'.1 ∧ b.2 = b'.2 ∨ b.2 = 0 ∧ b'.2 = 0) ∨
    p.2.2 = 0 ∧ p.1.2 ≠ 0 ∧ (p.1.1 = b.1 ∧ b.1 = b'.1 ∧ p.1.2 = b'.2 - b.2 ∨
      b.1 ≠ b'.1 ∧ (p.1.1 = b.1 ∧ p.1.2 = -b.2 ∧ b'.2 = 0 ∨ p.1.1 = b'.1 ∧ p.1.2 = b'.2 ∧ b.2 = 0)) ∨
    p.1.2 ≠ 0 ∧ p.2.2 ≠ 0 ∧ b.1 ≠ b'.1 ∧ p.1.1 = b.1 ∧ p.2.1 = b'.1 ∧ p.1.2 = -b.2 ∧ p.2.2 = b'.2 := by
  obtain ⟨⟨s, x⟩, ⟨t, y⟩⟩ := p
  obtain ⟨u, m⟩ := b
  obtain ⟨v, n⟩ := b'
  have hs := hp.held s
  have hu := hp.held u
  have hv := hp.held v
  by_cases lone : y = 0
  · simp only [Pair.held, lone, ite_self, add_zero, if_true] at hs hu hv ⊢
    by_cases uv : u = v <;> by_cases su : s = u <;> by_cases sv : s = v <;> grind
  · obtain ⟨hx, rfl, rfl, apart⟩ := hp.order lone
    simp only [Pair.held, apart, apart.symm, if_true, if_false] at hs hv
    grind

theorem Spans.not_stuck (hp : Spans b₀ b₁ p) (hq : Spans b₁ b₂ q) : ¬ Stuck p q := by
  have hp := hp.cases
  have hq := hq.cases
  rintro (stuck | ⟨e, first, stuck⟩)
  · rw [eliminate_eq_none] at stuck
    grind
  · rw [eliminate_eq_none] at stuck
    simp only [eliminate] at first
    split_ifs at first <;> cases first <;> grind

theorem Spans.merges [Inhabited T] (hp : Spans b₀ b₁ p) (hq : Spans b₁ b₂ q) (merges : Merges p q c) :
    Spans b₀ b₂ c := by
  refine ⟨fun t => ?_, fun two => ?_⟩
  · rw [merges.held_eq, hp.held, hq.held]
    omega
  · obtain ⟨e, e', first, second, balances⟩ := merges
    have hp := hp.cases
    have hq := hq.cases
    have left := mt balances.left fun zero => two zero.2
    have apart := balances.apart two
    obtain rfl := balances.same two
    simp only [eliminate] at first second
    split_ifs at first <;> cases first <;> split_ifs at second <;> cases second <;> grind

theorem Spans.unique [Inhabited T] (hp : Spans b b₀ p) (hq : Spans b b₀ q) (tp : p.Tidy) (tq : q.Tidy) : p = q := by
  obtain ⟨⟨s, x⟩, ⟨t, y⟩⟩ := p
  obtain ⟨⟨s', x'⟩, ⟨t', y'⟩⟩ := q
  have := hp.cases
  have := hq.cases
  have := tp.left
  have := tp.right
  have := tq.left
  have := tq.right
  grind

end Pair

/-! ## The amounts are exact -/

abbrev value (x : T × Signed) : T × ℤ := (x.1, x.2.toInt)

def values (e : FeeExcess T) : Pair T := (value (e.feeTokenL, e.feeExcessL), value (e.feeTokenR, e.feeExcessR))

def Amounts (e : FeeExcess T) : Prop := e.feeExcessL.Canonical ∧ e.feeExcessR.Canonical

theorem toInt_eq_zero {x : Signed} : x.toInt = 0 ↔ x.magnitude = 0 := by
  rw [Signed.toInt]
  split_ifs <;> omega

omit [DecidableEq T] in
theorem values_inj {e e' : FeeExcess T} (h : e.Amounts) (h' : e'.Amounts) (same : e.values = e'.values) : e = e' := by
  have inj : ∀ {x y : Signed}, x.Canonical → y.Canonical → x.toInt = y.toInt → x = y := by
    rintro ⟨m, s⟩ ⟨n, s'⟩ ⟨-, hm⟩ ⟨-, hn⟩ eq
    simp only [Signed.toInt] at eq
    cases s <;> cases s' <;> grind
  obtain ⟨t, x, t', x'⟩ := e
  simp only [values, value, Prod.mk.injEq] at same
  obtain ⟨⟨rfl, left⟩, rfl, right⟩ := same
  obtain rfl : x = _ := inj h.1 h'.1 left
  obtain rfl : x' = _ := inj h.2 h'.2 right
  rfl

section
variable {α : Type} {E : Error T → Prop} {R : α → Prop}

omit [DecidableEq T] in
theorem Ends.add {x y : Signed} (hx : x.Canonical) (hy : y.Canonical) {error : Error T}
    {f : Signed → Except (Error T) α} (he : E error)
    (next : ∀ z : Signed, z.Canonical → z.toInt = x.toInt + y.toInt → Ends (f z) R E) :
    Ends (okOr error (x.add y) >>= f) R E := by
  refine Ends.okOr he fun z sum => ?_
  rw [Signed.add_eq hx hy] at sum
  split_ifs at sum with fits
  cases sum
  exact next _ (Signed.wrapped_exact fits).1 (Signed.wrapped_exact fits).2

theorem Ends.eliminate {l m r : T × Signed} (hl : l.2.Canonical) (hm : m.2.Canonical) (hr : r.2.Canonical)
    {f : (T × Signed) × (T × Signed) → Except (Error T) α} (large : E .eliminate)
    (stuck : Pair.eliminate (value l) (value m) (value r) = none → ∀ t x, E (.nonzero t x))
    (next : ∀ l' r' : T × Signed, l'.2.Canonical → r'.2.Canonical →
      Pair.eliminate (value l) (value m) (value r) = some (value l', value r') → Ends (f (l', r')) R E) :
    Ends (eliminateFeeExcess l m r >>= f) R E := by
  simp only [eliminateFeeExcess, ← toInt_eq_zero]
  split_ifs with left right zero
  · rw [bind_assoc]
    exact Ends.add hl hm large fun z hz sum => next _ _ hz hr (by grind [Pair.eliminate])
  · rw [bind_assoc]
    exact Ends.add hr hm large fun z hz sum => next _ _ hl hz (by grind [Pair.eliminate])
  · exact next _ _ hl hr (by grind [Pair.eliminate])
  · exact stuck (by grind [Pair.eliminate]) _ _

end

variable [Inhabited T] {e e₁ e₂ : FeeExcess T}

theorem rebalance_ends (he : e.Amounts) {E : Error T → Prop} (large : E .rebalance) :
    Ends e.rebalance (fun e' => e'.Amounts ∧ Pair.Balances e.values e'.values) E := by
  have zero : Signed.toInt ⟨0, .pos⟩ = 0 := rfl
  simp only [rebalance, ← toInt_eq_zero]
  by_cases same : (if e.feeExcessL.toInt = 0 then e.feeTokenR else e.feeTokenL) = e.feeTokenR
  · simp only [same, if_true, pure_bind]
    refine Ends.add he.1 he.2 large fun z hz sum =>
      Ends.ok ⟨⟨hz, Nat.two_pow_pos 64, fun _ => rfl⟩, ⟨?_, ?_, ?_⟩, ?_, ?_⟩
    all_goals grind [values, Pair.held]
  · simp only [same, if_false, pure_bind]
    refine Ends.ok ⟨he, ⟨?_, ?_, ?_⟩, ?_, ?_⟩
    all_goals grind [values, Pair.held]

theorem combine_ends (h₁ : e₁.Amounts) (h₂ : e₂.Amounts) {E : Error T → Prop} (large : E .eliminate)
    (large' : E .rebalance) (stuck : Pair.Stuck e₁.values e₂.values → ∀ t x, E (.nonzero t x)) :
    Ends (combine e₁ e₂) (fun e => e.Amounts ∧ Pair.Merges e₁.values e₂.values e.values) E := by
  refine Ends.eliminate h₁.1 h₁.2 h₂.1 large (fun none => stuck (.inl none)) fun l m hl hm first => ?_
  refine Ends.eliminate hl hm h₂.2 large (fun none => stuck (.inr ⟨_, first, none⟩)) fun l' r hl' hr second => ?_
  exact (rebalance_ends ⟨hl', hr⟩ large').imp fun e he => ⟨he.1, _, _, first, second, he.2⟩

/-! ## Every order of merging -/

variable {xs : List (FeeExcess T)} {r : Except (Error T) (FeeExcess T)}

/-- Merging keeps the total of every token, and makes the canonical form. -/
theorem Merged.totals (merged : Merged xs r) (amounts : ∀ x ∈ xs, x.Amounts) :
    Ends r (fun e => e.Amounts ∧ (∀ t, e.values.held t = (xs.map (·.values.held t)).sum) ∧
      (xs = [e] ∨ e.values.Tidy)) fun _ => True := by
  induction merged with
  | leaf e => exact Ends.ok ⟨amounts e (mem_singleton_self e), fun t => by simp, .inl rfl⟩
  | node _ _ ihl ihr =>
    rw [forall_mem_append] at amounts
    refine (ihl amounts.1).bind fun a ha => (ihr amounts.2).bind fun b hb => ?_
    refine (combine_ends ha.1 hb.1 trivial trivial fun _ _ _ => trivial).imp fun e ⟨he, merges⟩ => ?_
    exact ⟨he, fun t => by rw [merges.held_eq, ha.2.1, hb.2.1, map_append, sum_append], .inr merges.tidy⟩

theorem merged_foldlM : ∀ {xs ys : List (FeeExcess T)} {a e : FeeExcess T}, Merged ys (.ok a) →
    xs.foldlM combine a = .ok e → Merged (ys ++ xs) (.ok e)
  | [], ys, a, e, merged, run => by
    cases run
    rwa [append_nil]
  | x :: xs, ys, a, e, merged, run => by
    rw [foldlM_cons, bind_eq_ok] at run
    obtain ⟨b, first, rest⟩ := run
    have step := merged.node (.leaf x)
    rw [append_cons]
    exact merged_foldlM (first ▸ step) rest

theorem sum_of_checked {part : List (FeeExcess T)} (amounts : ∀ x ∈ part, x.Amounts)
    (checked : checkZeroFeeExcess part = .ok ()) (t : T) : (part.map (·.values.held t)).sum = 0 := by
  obtain ⟨e, run, zero⟩ := bind_eq_ok.1 checked
  rw [ensure_eq_ok, isZero, decide_eq_true_eq, ← toInt_eq_zero, ← toInt_eq_zero] at zero
  have exact : Signed.Canonical ⟨0, .pos⟩ := ⟨Nat.two_pow_pos 64, fun _ => rfl⟩
  obtain ⟨-, total, -⟩ := (merged_foldlM (.leaf empty) run).totals (forall_mem_cons.2 ⟨⟨exact, exact⟩, amounts⟩)
  have first : (empty : FeeExcess T).values.held t = 0 := by simp [empty, values, Pair.held, Signed.toInt]
  have last : e.values.held t = 0 := by simp [values, Pair.held, zero.2.2]
  rw [← last, total, map_append, sum_append, map_singleton, sum_singleton, first, zero_add]

/-- The token and the amount of the fees that are open after a transaction. -/
def next (b : T × ℤ) (x : T × Signed) : T × ℤ :=
  if x.2.toInt = 0 then b else (x.1, (if b.1 = x.1 then b.2 else 0) + x.2.toInt)

/-- A new token comes only when nothing is open in the last one. -/
def Grouped : T × ℤ → List (T × Signed) → Prop
  | _, [] => True
  | b, x :: xs => (x.2.toInt = 0 ∨ b.1 = x.1 ∨ b.2 = 0) ∧ Grouped (next b x) xs

omit [Inhabited T] in
theorem grouped_append {ys : List (T × Signed)} : ∀ {xs : List (T × Signed)} {b : T × ℤ},
    Grouped b (xs ++ ys) ↔ Grouped b xs ∧ Grouped (xs.foldl next b) ys
  | [], _ => (true_and _).symm ▸ Iff.rfl
  | x :: xs, b => by rw [cons_append, Grouped, Grouped, grouped_append, and_assoc, foldl_cons]

theorem spans_ofSingle {b : T × ℤ} {x : T × Signed} (hx : x.2.toInt = 0 ∨ b.1 = x.1 ∨ b.2 = 0) :
    Pair.Spans b (next b x) (ofSingle x).values := by
  refine ⟨fun t => ?_, fun two => absurd rfl two⟩
  have right : Signed.toInt ⟨0, .pos⟩ = 0 := rfl
  simp only [ofSingle, values, Pair.held, right, ite_self, add_zero, next]
  split_ifs <;> grind

theorem Merged.spans {txns : List (T × Signed)} {b : T × ℤ} (grouped : Grouped b txns)
    (amounts : ∀ x ∈ txns, x.2.Canonical) (merged : Merged (txns.map ofSingle) r) :
    Ends r (fun e => e.Amounts ∧ e.values.Spans b (txns.foldl next b) ∧ (txns.length = 1 ∨ e.values.Tidy))
      fun x => ∀ t y, x ≠ .nonzero t y := by
  generalize all : txns.map ofSingle = xs at merged
  induction merged generalizing txns b with
  | leaf e =>
    obtain ⟨x, rfl, rfl⟩ := map_eq_singleton_iff.1 all
    exact Ends.ok ⟨⟨amounts x (mem_singleton_self x), Nat.two_pow_pos 64, fun _ => rfl⟩,
      spans_ofSingle grouped.1, .inl rfl⟩
  | node _ _ ihl ihr =>
    obtain ⟨xs, ys, rfl, rfl, rfl⟩ := map_eq_append_iff.1 all
    rw [grouped_append] at grouped
    rw [forall_mem_append] at amounts
    refine (ihl grouped.1 amounts.1 rfl).bind fun a ha => (ihr grouped.2 amounts.2 rfl).bind fun c hc => ?_
    rw [foldl_append]
    exact (combine_ends ha.1 hc.1 (by simp) (by simp) fun stuck => absurd stuck (ha.2.1.not_stuck hc.2.1)).imp
      fun e he => ⟨he.1, ha.2.1.merges hc.2.1 he.2, .inr he.2.tidy⟩

/-- **The order of merging does not matter**: none gets stuck, and all that end without an
    overflow end with the same excess. -/
theorem merged_grouped {txns : List (T × Signed)} {b : T × ℤ} (grouped : Grouped b txns)
    (amounts : ∀ x ∈ txns, x.2.Canonical) (several : txns.length ≠ 1) (merged : Merged (txns.map ofSingle) r) :
    (∀ t y, r ≠ .error (.nonzero t y)) ∧ ∀ e e', r = .ok e → Merged (txns.map ofSingle) (.ok e') → e = e' := by
  have ends := merged.spans grouped amounts
  refine ⟨fun t y stuck => ?_, ?_⟩
  · rw [stuck] at ends
    exact ends t y rfl
  · rintro e e' rfl merged'
    obtain ⟨he, spans, tidy⟩ := ends
    obtain ⟨he', spans', tidy'⟩ := merged'.spans grouped amounts
    exact values_inj he he' (spans.unique spans' (tidy.resolve_left several) (tidy'.resolve_left several))

theorem merged_grouped_three : ∃ e : FeeExcess ℕ,
    (combine (ofSingle (7, ⟨3, .neg⟩)) (ofSingle (8, ⟨5, .pos⟩)) >>= (combine · (ofSingle (8, ⟨2, .neg⟩)))) = .ok e ∧
      (combine (ofSingle (8, ⟨5, .pos⟩)) (ofSingle (8, ⟨2, .neg⟩)) >>= combine (ofSingle (7, ⟨3, .neg⟩))) = .ok e := by
  have grouped : Grouped (7, 3) [(7, ⟨3, .neg⟩), (8, ⟨5, .pos⟩), (8, ⟨2, .neg⟩)] :=
    ⟨by decide, by decide, by decide, trivial⟩
  have same := (merged_grouped grouped ?_ (by decide) ((Merged.leaf _).node ((Merged.leaf _).node (.leaf _)))).2 _ _
    rfl (((Merged.leaf _).node (.leaf _)).node (.leaf _))
  · exact ⟨_, rfl, congrArg _ same⟩
  · simp only [forall_mem_cons]
    exact ⟨⟨by decide, by decide⟩, ⟨by decide, by decide⟩, ⟨by decide, by decide⟩, by simp⟩

end FeeExcess

end MinaRust.Account
