import Mathlib.Tactic

/-!
# Fallible computations

Rules for programs in the `Except` monad: how a sequence of computations comes to succeed,
and what a fold over a list preserves when none of its steps fails.

* `foldlM_invariant`, `foldlM_error`: what every step preserves, and how a step fails;
* `gather`: the results of a list of computations, one behind the other. `foldlM_appends` is a
  fold that collects them, and `gather_eq_ok_iff_forall₂` is the case of one result from each
  computation.
-/

namespace Fallible

universe u

variable {ε : Type*} {α β : Type u}

@[simp] theorem ok_bind (a : α) (f : α → Except ε β) : (Except.ok a >>= f) = f a := rfl

@[simp] theorem error_bind (e : ε) (f : α → Except ε β) :
    (Except.error e >>= f) = Except.error e := rfl

@[simp] theorem pure_eq_ok (a : α) : (pure a : Except ε α) = Except.ok a := rfl

theorem bind_eq_ok {x : Except ε α} {f : α → Except ε β} {b : β} :
    (x >>= f) = .ok b ↔ ∃ a, x = .ok a ∧ f a = .ok b := by
  cases x <;> simp

theorem bind_eq_error {x : Except ε α} {f : α → Except ε β} {e : ε} :
    (x >>= f) = .error e ↔ x = .error e ∨ ∃ a, x = .ok a ∧ f a = .error e := by
  cases x <;> simp

theorem map_eq_ok {x : Except ε α} {f : α → β} {b : β} :
    x.map f = .ok b ↔ ∃ a, x = .ok a ∧ f a = b := by
  cases x <;> simp [Except.map]

theorem toOption_eq_some {x : Except ε α} {a : α} : x.toOption = some a ↔ x = .ok a := by
  cases x <;> simp [Except.toOption]

/-- A closed computation can be run to see that it succeeds. -/
theorem exists_ok_of_toBool {x : Except ε α} (h : x.toBool = true) : ∃ a, x = .ok a := by
  cases x with
  | error e => cases h
  | ok a => exact ⟨a, rfl⟩

variable {γ : Type*} {f : α → γ → Except ε α}

/-- What every successful step preserves holds after a successful fold. -/
theorem foldlM_invariant {P : α → Prop} (step : ∀ a c a', P a → f a c = .ok a' → P a')
    {l : List γ} {a a' : α} (ha : P a) (h : l.foldlM f a = .ok a') : P a' := by
  induction l generalizing a with
  | nil =>
    rw [List.foldlM_nil, pure_eq_ok, Except.ok.injEq] at h
    exact h ▸ ha
  | cons c l ih =>
    rw [List.foldlM_cons, bind_eq_ok] at h
    obtain ⟨b, hb, h⟩ := h
    exact ih (step a c b ha hb) h

/-- A fold fails as one of its steps does. -/
theorem foldlM_error {E : ε → Prop} {l : List γ}
    (step : ∀ a, ∀ c ∈ l, ∀ e, f a c = .error e → E e) {a : α} {e : ε}
    (h : l.foldlM f a = .error e) : E e := by
  induction l generalizing a with
  | nil =>
    rw [List.foldlM_nil, pure_eq_ok] at h
    cases h
  | cons c l ih =>
    rw [List.foldlM_cons] at h
    cases hb : f a c with
    | error e' =>
      rw [hb, error_bind, Except.error.injEq] at h
      exact h ▸ step a c (by simp) e' hb
    | ok b =>
      rw [hb, ok_bind] at h
      exact ih (fun a c hc => step a c (by simp [hc])) h

/-! ### Collecting results -/

variable {g : γ → Except ε (List β)}

/-- The results of `g` on the elements of a list, one behind the other. -/
def gather (g : γ → Except ε (List β)) : List γ → Except ε (List β)
  | [] => .ok []
  | c :: l => do
      let ys ← g c
      let zs ← gather g l
      return ys ++ zs

@[simp] theorem gather_nil : gather g [] = .ok [] := rfl

theorem gather_cons_eq_ok {c : γ} {l : List γ} {xs : List β} :
    gather g (c :: l) = .ok xs ↔
      ∃ ys zs, g c = .ok ys ∧ gather g l = .ok zs ∧ xs = ys ++ zs := by
  simp only [gather, bind_eq_ok, pure_eq_ok, Except.ok.injEq]
  constructor
  · rintro ⟨ys, hys, zs, hzs, rfl⟩
    exact ⟨ys, zs, hys, hzs, rfl⟩
  · rintro ⟨ys, zs, hys, hzs, rfl⟩
    exact ⟨ys, hys, zs, hzs, rfl⟩

theorem gather_append_eq_ok {l l' : List γ} {xs : List β} :
    gather g (l ++ l') = .ok xs ↔
      ∃ ys zs, gather g l = .ok ys ∧ gather g l' = .ok zs ∧ xs = ys ++ zs := by
  induction l generalizing xs with
  | nil => simp
  | cons c l ih =>
    rw [List.cons_append, gather_cons_eq_ok]
    constructor
    · rintro ⟨ys, zs, hys, hzs, rfl⟩
      obtain ⟨us, vs, hus, hvs, rfl⟩ := ih.1 hzs
      exact ⟨ys ++ us, vs, gather_cons_eq_ok.2 ⟨ys, us, hys, hus, rfl⟩, hvs, by simp⟩
    · rintro ⟨ys, zs, hys, hzs, rfl⟩
      obtain ⟨us, vs, hus, hvs, rfl⟩ := gather_cons_eq_ok.1 hys
      exact ⟨us, vs ++ zs, hus, ih.2 ⟨vs, zs, hvs, hzs, rfl⟩, by simp⟩

theorem gather_singleton_eq_ok {c : γ} {xs : List β} : gather g [c] = .ok xs ↔ g c = .ok xs := by
  rw [gather_cons_eq_ok]
  simp

/-- Computations that give one result each. -/
theorem gather_of_forall₂ {l : List γ} {xs : List β}
    (hg : List.Forall₂ (fun c x => g c = .ok [x]) l xs) : gather g l = .ok xs := by
  induction hg with
  | nil => rfl
  | cons hc _ ih => exact gather_cons_eq_ok.2 ⟨_, _, hc, ih, rfl⟩

theorem exists_ok_of_gather {l : List γ} {xs : List β} (h : gather g l = .ok xs) {c : γ}
    (hc : c ∈ l) : ∃ ys, g c = .ok ys := by
  obtain ⟨l₁, l₂, rfl⟩ := List.append_of_mem hc
  obtain ⟨-, zs, -, hzs, -⟩ := gather_append_eq_ok.1 h
  obtain ⟨ys, -, hys, -⟩ := gather_cons_eq_ok.1 hzs
  exact ⟨ys, hys⟩

/-- No results in all means no result from each. -/
theorem gather_eq_nil_iff {l : List γ} {xs : List β} (h : gather g l = .ok xs) :
    xs = [] ↔ ∀ c ∈ l, g c = .ok [] := by
  induction l generalizing xs with
  | nil => simpa [eq_comm] using h
  | cons c l ih =>
    obtain ⟨ys, zs, hys, hzs, rfl⟩ := gather_cons_eq_ok.1 h
    rw [List.append_eq_nil_iff, ih hzs, List.forall_mem_cons, hys, Except.ok.injEq]

/-- If every computation gives one result, the results are those of the elements. -/
theorem gather_eq_ok_iff_forall₂ (hone : ∀ c ys, g c = .ok ys → ∃ y, ys = [y]) {l : List γ}
    {xs : List β} : gather g l = .ok xs ↔ List.Forall₂ (fun c x => g c = .ok [x]) l xs := by
  induction l generalizing xs with
  | nil => simp [eq_comm]
  | cons c l ih =>
    rw [gather_cons_eq_ok, List.forall₂_cons_left_iff]
    constructor
    · rintro ⟨ys, zs, hys, hzs, rfl⟩
      obtain ⟨y, rfl⟩ := hone c ys hys
      exact ⟨y, zs, hys, ih.1 hzs, rfl⟩
    · rintro ⟨y, zs, hy, hzs, rfl⟩
      exact ⟨[y], zs, hy, ih.2 hzs, rfl⟩

/-- A relation can be followed along a list exactly when it can from each element. -/
theorem exists_forall₂_iff {R : γ → β → Prop} {l : List γ} :
    (∃ xs, List.Forall₂ R l xs) ↔ ∀ c ∈ l, ∃ x, R c x := by
  induction l with
  | nil => simp
  | cons c l ih =>
    simp only [List.forall₂_cons_left_iff, List.mem_cons, forall_eq_or_imp, ← ih]
    constructor
    · rintro ⟨_, x, xs, hx, hxs, rfl⟩
      exact ⟨⟨x, hx⟩, xs, hxs⟩
    · rintro ⟨⟨x, hx⟩, xs, hxs⟩
      exact ⟨x :: xs, x, xs, hx, hxs, rfl⟩

/-- A fold whose steps append results: `view` shows what has been collected. -/
theorem foldlM_appends (f : α → γ → Except ε α) (g : γ → Except ε (List β)) (view : α → List β)
    (hinj : Function.Injective view) (hinit : ∀ a xs ys, view a = xs ++ ys → ∃ a', view a' = xs)
    (step : ∀ a c a', f a c = .ok a' ↔ ∃ ys, g c = .ok ys ∧ view a' = view a ++ ys)
    {l : List γ} {a a' : α} :
    l.foldlM f a = .ok a' ↔ ∃ ys, gather g l = .ok ys ∧ view a' = view a ++ ys := by
  induction l generalizing a with
  | nil =>
    simp only [List.foldlM_nil, pure_eq_ok, gather_nil, Except.ok.injEq, exists_eq_left',
      List.append_nil]
    exact ⟨fun h => h ▸ rfl, fun h => hinj h.symm⟩
  | cons c l ih =>
    rw [List.foldlM_cons, bind_eq_ok]
    constructor
    · rintro ⟨b, hb, hl⟩
      obtain ⟨ys, hys, hview⟩ := (step a c b).1 hb
      obtain ⟨zs, hzs, hview'⟩ := ih.1 hl
      exact ⟨ys ++ zs, gather_cons_eq_ok.2 ⟨ys, zs, hys, hzs, rfl⟩, by
        rw [hview', hview, List.append_assoc]⟩
    · rintro ⟨xs, hxs, hview⟩
      obtain ⟨ys, zs, hys, hzs, rfl⟩ := gather_cons_eq_ok.1 hxs
      rw [← List.append_assoc] at hview
      obtain ⟨b, hb⟩ := hinit a' _ _ hview
      exact ⟨b, (step a c b).2 ⟨ys, hys, hb⟩, ih.2 ⟨zs, hzs, by rw [hb, hview]⟩⟩

end Fallible
