/-! Loops over an expression keep their pending work on a stack of their own, so that no tree is
too deep for them. How many steps such a loop takes depends on how often a node is reached, which
for a graph with shared nodes is exponential in its size; a budget is therefore given as a power
of two. Main statement: a loop that ends within its budget gives its answer. -/
namespace Stepwise.Loop

/-- One step either goes on with a new state or ends with an answer. -/
inductive Progress (σ ρ : Type) where
  | more (state : σ)
  | done (answer : ρ)

variable {σ ρ : Type}

/-- Up to `2^k` steps. -/
def double (step : σ → Progress σ ρ) : Nat → σ → Progress σ ρ
  | 0, state => step state
  | k + 1, state =>
    match double step k state with
    | .more later => double step k later
    | .done answer => .done answer

/-- Rounds of `2^k`, `2^(k+1)`, … steps. Short loops end in an early round. -/
def rounds (step : σ → Progress σ ρ) : Nat → Nat → σ → Option ρ
  | 0, _, _ => none
  | n + 1, k, state =>
    match double step k state with
    | .more later => rounds step n (k + 1) later
    | .done answer => some answer

/-- The answer of a loop that takes fewer than `2^budget` steps. -/
def run (budget : Nat) (step : σ → Progress σ ρ) (state : σ) : Option ρ := rounds step budget 0 state

/-- From `state` the loop ends with `answer` in its `n`-th step. -/
inductive Ends (step : σ → Progress σ ρ) : Nat → σ → ρ → Prop where
  | now {state answer} (h : step state = .done answer) : Ends step 1 state answer
  | later {n state next answer} (h : step state = .more next) (rest : Ends step n next answer) :
      Ends step (n + 1) state answer

theorem Ends.pos {step : σ → Progress σ ρ} {n : Nat} {state : σ} {answer : ρ}
    (h : Ends step n state answer) : 0 < n := by
  cases h <;> omega

theorem pow_double (k : Nat) : Nat.pow 2 (k + 1) = Nat.pow 2 k + Nat.pow 2 k := by
  rw [Nat.pow_eq, Nat.pow_eq, Nat.pow_succ]; omega

theorem double_of_ends {step : σ → Progress σ ρ} {n : Nat} {state : σ} {answer : ρ}
    (h : Ends step n state answer) (k : Nat) :
    (n ≤ Nat.pow 2 k ∧ double step k state = .done answer) ∨
      ∃ next, double step k state = .more next ∧ Nat.pow 2 k < n ∧
        Ends step (n - Nat.pow 2 k) next answer := by
  induction k generalizing n state with
  | zero =>
    cases h with
    | now h => exact .inl ⟨Nat.le_refl _, h⟩
    | later h rest => exact .inr ⟨_, h, Nat.succ_lt_succ rest.pos, rest⟩
  | succ k ih =>
    have twice := pow_double k
    rcases ih h with ⟨bound, ended⟩ | ⟨next, more, bound, rest⟩
    · exact .inl ⟨by omega, by simp [double, ended]⟩
    · rcases ih rest with ⟨bound', ended⟩ | ⟨last, more', bound', rest'⟩
      · exact .inl ⟨by omega, by simp [double, more, ended]⟩
      · refine .inr ⟨last, by simp [double, more, more'], by omega, ?_⟩
        rw [twice, Nat.sub_add_eq]
        exact rest'

theorem rounds_of_ends {step : σ → Progress σ ρ} {n : Nat} {state : σ} {answer : ρ}
    (h : Ends step n state answer) (count k : Nat)
    (bound : n + Nat.pow 2 k ≤ Nat.pow 2 (k + count)) :
    rounds step count k state = some answer := by
  induction count generalizing n state k with
  | zero => have := h.pos; simp only [Nat.add_zero] at bound; omega
  | succ count ih =>
    rcases double_of_ends h k with ⟨_, ended⟩ | ⟨next, more, _, rest⟩
    · simp [rounds, ended]
    · have twice := pow_double k
      simp only [rounds, more]
      refine ih rest (k + 1) ?_
      rw [show k + 1 + count = k + (count + 1) by omega, twice]
      omega

/-- A loop that ends within its budget gives its answer. -/
theorem run_of_ends {step : σ → Progress σ ρ} {n budget : Nat} {state : σ} {answer : ρ}
    (h : Ends step n state answer) (bound : n < Nat.pow 2 budget) :
    run budget step state = some answer := by
  refine rounds_of_ends h budget 0 ?_
  rw [Nat.zero_add]
  exact bound

/-- The loop goes from one state to another in `n` steps. -/
inductive Leads (step : σ → Progress σ ρ) : Nat → σ → σ → Prop where
  | refl {state} : Leads step 0 state state
  | later {n state next last} (h : step state = .more next) (rest : Leads step n next last) :
      Leads step (n + 1) state last

theorem Leads.once {step : σ → Progress σ ρ} {state next : σ} (h : step state = .more next) :
    Leads step 1 state next :=
  .later h .refl

theorem Leads.trans {step : σ → Progress σ ρ} {m n : Nat} {first middle last : σ}
    (h : Leads step m first middle) (rest : Leads step n middle last) : Leads step (m + n) first last := by
  induction h with
  | refl => rw [Nat.zero_add]; exact rest
  | later h _ ih => rw [Nat.succ_add]; exact .later h (ih rest)

theorem Leads.trans_ends {step : σ → Progress σ ρ} {m n : Nat} {first middle : σ} {answer : ρ}
    (h : Leads step m first middle) (rest : Ends step n middle answer) : Ends step (m + n) first answer := by
  induction h with
  | refl => rw [Nat.zero_add]; exact rest
  | later h _ ih => rw [Nat.succ_add]; exact .later h (ih rest)

theorem Leads.ends {step : σ → Progress σ ρ} {n : Nat} {state last : σ} {answer : ρ}
    (h : Leads step n state last) (ended : step last = .done answer) : Ends step (n + 1) state answer :=
  h.trans_ends (.now ended)

theorem run_of_leads {step : σ → Progress σ ρ} {n budget : Nat} {state last : σ} {answer : ρ}
    (h : Leads step n state last) (ended : step last = .done answer) (bound : n + 1 < Nat.pow 2 budget) :
    run budget step state = some answer :=
  run_of_ends (h.ends ended) bound

theorem lt_pow_add (n k : Nat) : n * Nat.pow 2 k < Nat.pow 2 (n + k) := by
  rw [Nat.pow_eq, Nat.pow_eq, Nat.pow_add]
  exact Nat.mul_lt_mul_of_pos_right Nat.lt_two_pow_self (Nat.two_pow_pos k)

end Stepwise.Loop
