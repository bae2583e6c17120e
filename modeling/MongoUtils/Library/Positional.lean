import Mathlib.Tactic
import Mathlib.Data.List.Lex
import Mathlib.Data.Nat.Digits.Defs

/-!
# Positional notation, most significant digit first

Digit strings of one length are ordered as the numbers that they denote.

* `value`: the number that a list of digits denotes in base `b`;
* `value_lt_pow`: it is below the power of the base;
* `value_lt_value_iff`, `value_inj`: the lexicographic order of the lists is the order of the
  numbers, and different lists denote different numbers.
-/

namespace Positional

variable {b : ℕ} {ds es : List ℕ}

/-- The number that the digits denote in base `b`, the most significant digit first. -/
def value (b : ℕ) (ds : List ℕ) : ℕ := Nat.ofDigits b ds.reverse

@[simp] theorem value_nil (b : ℕ) : value b [] = 0 := rfl

theorem value_cons (b d : ℕ) (ds : List ℕ) :
    value b (d :: ds) = b ^ ds.length * d + value b ds := by
  rw [value, List.reverse_cons, Nat.ofDigits_append, Nat.ofDigits_singleton, List.length_reverse,
    Nat.add_comm, value]

/-- `ds` are digits in base `b`. -/
def Digits (b : ℕ) (ds : List ℕ) : Prop := ∀ d ∈ ds, d < b

theorem digits_cons {d : ℕ} : Digits b (d :: ds) ↔ d < b ∧ Digits b ds := List.forall_mem_cons

theorem value_lt_pow (h : Digits b ds) : value b ds < b ^ ds.length := by
  induction ds with
  | nil => simp
  | cons d ds ih =>
    obtain ⟨hd, hds⟩ := digits_cons.1 h
    have hv := ih hds
    have hmul := Nat.mul_le_mul_left (b ^ ds.length) (Nat.succ_le_of_lt hd)
    rw [Nat.mul_succ] at hmul
    rw [value_cons, List.length_cons, Nat.pow_succ]
    omega

/-- The first digit decides, whatever follows. -/
theorem value_cons_lt {d e : ℕ} (h : Digits b ds) (hlen : ds.length = es.length) (hde : d < e) :
    value b (d :: ds) < value b (e :: es) := by
  have hv := value_lt_pow h
  have hmul := Nat.mul_le_mul_left (b ^ ds.length) (Nat.succ_le_of_lt hde)
  rw [Nat.mul_succ] at hmul
  rw [value_cons, value_cons, ← hlen]
  omega

/-- **The order of the numbers is the lexicographic order of their digits.** -/
theorem value_lt_value_iff (hds : Digits b ds) (hes : Digits b es)
    (hlen : ds.length = es.length) : value b ds < value b es ↔ ds < es := by
  induction ds generalizing es with
  | nil =>
    obtain rfl := List.length_eq_zero_iff.1 hlen.symm
    simp
  | cons d ds ih =>
    cases es with
    | nil => cases hlen
    | cons e es =>
      have hds' := (digits_cons.1 hds).2
      have hes' := (digits_cons.1 hes).2
      have hlen' : ds.length = es.length := Nat.succ.inj hlen
      rw [List.cons_lt_cons_iff]
      rcases lt_trichotomy d e with hde | rfl | hed
      · exact iff_of_true (value_cons_lt hds' hlen' hde) (Or.inl hde)
      · rw [value_cons, value_cons, ← hlen', Nat.add_lt_add_iff_left, ih hds' hes' hlen']
        simp
      · refine iff_of_false (value_cons_lt hes' hlen'.symm hed).not_gt ?_
        rintro (hde | ⟨rfl, -⟩)
        · exact hde.not_gt hed
        · exact lt_irrefl _ hed

/-- Different digits denote different numbers. -/
theorem value_inj (hds : Digits b ds) (hes : Digits b es) (hlen : ds.length = es.length) :
    value b ds = value b es ↔ ds = es := by
  refine ⟨fun h => ?_, fun h => h ▸ rfl⟩
  have hlt := (value_lt_value_iff hds hes hlen).not.1 h.not_lt
  have hgt := (value_lt_value_iff hes hds hlen.symm).not.1 h.not_gt
  exact le_antisymm (not_lt.1 hgt) (not_lt.1 hlt)

end Positional
