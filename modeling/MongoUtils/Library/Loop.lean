import Mathlib.Tactic

/-!
# While loops

One pass through the test and the body of a loop either goes on in a new state or leaves the
loop with a result. The outcome of a pass may itself be a failure: the result type is up to
the program.

* `Iter`, `run`: the outcome of a pass, and the loop with a bound on the number of passes;
* `Visits`, `states`: the states in which a pass starts, as a relation and one after the other;
* `Spec`: an invariant, a variant and a postcondition. `Spec.run` is total correctness (the
  loop stops within the bound that the variant gives, and the postcondition holds).
-/

namespace Loop

/-- The outcome of one pass through a loop. -/
inductive Iter (σ ρ : Type*)
  | next (s : σ)
  | done (r : ρ)

variable {σ ρ : Type*} (body : σ → Iter σ ρ)

/-- The loop, given up after `n` passes. -/
def run : ℕ → σ → Option ρ
  | 0, _ => none
  | n + 1, s =>
      match body s with
      | .next s' => run n s'
      | .done r => some r

/-- The states in which a pass of the loop started in `s` begins. -/
inductive Visits (s : σ) : σ → Prop
  | start : Visits s s
  | next {t u : σ} : Visits s t → body t = .next u → Visits s u

/-- The states in which the first `n` passes begin. -/
def states : ℕ → σ → List σ
  | 0, _ => []
  | n + 1, s => s :: match body s with
      | .next s' => states n s'
      | .done _ => []

variable {body}

theorem states_next {s s' : σ} (h : body s = .next s') (n : ℕ) :
    states body (n + 1) s = s :: states body n s' := by
  simp [states, h]

theorem states_done {s : σ} {r : ρ} (h : body s = .done r) (n : ℕ) :
    states body (n + 1) s = [s] := by
  simp [states, h]

/-- What every pass preserves holds in every state that the loop visits. -/
theorem Visits.invariant {Inv : σ → Prop} (next : ∀ s s', Inv s → body s = .next s' → Inv s')
    {s t : σ} (hs : Inv s) (h : Visits body s t) : Inv t := by
  induction h with
  | start => exact hs
  | next _ hb ih => exact next _ _ ih hb

theorem run_next {s s' : σ} (h : body s = .next s') (n : ℕ) :
    run body (n + 1) s = run body n s' := by
  simp [run, h]

theorem run_done {s : σ} {r : ρ} (h : body s = .done r) (n : ℕ) :
    run body (n + 1) s = some r := by
  simp [run, h]

/-- `Inv` is an invariant, `μ` decreases in every pass, and a result satisfies `Q`. -/
structure Spec (body : σ → Iter σ ρ) (Inv : σ → Prop) (μ : σ → ℕ) (Q : ρ → Prop) : Prop where
  next : ∀ s s', Inv s → body s = .next s' → Inv s' ∧ μ s' < μ s
  done : ∀ s r, Inv s → body s = .done r → Q r

namespace Spec

variable {Inv : σ → Prop} {μ : σ → ℕ} {Q : ρ → Prop}

/-- **Total correctness**: a loop with a variant stops, and its result satisfies `Q`. -/
theorem run (h : Spec body Inv μ Q) {s : σ} (hs : Inv s) {n : ℕ} (hn : μ s < n) :
    ∃ r, run body n s = some r ∧ Q r := by
  induction n generalizing s with
  | zero => omega
  | succ n ih =>
    cases hb : body s with
    | next s' =>
      obtain ⟨hs', hlt⟩ := h.next s s' hs hb
      rw [run_next hb]
      exact ih hs' (by omega)
    | done r => exact ⟨r, run_done hb n, h.done s r hs hb⟩

end Spec

end Loop
