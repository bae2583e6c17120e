import MongoUtils.Library.Loop

/-!
# Readers of a stream

A reader takes items off the front of a stream and leaves the rest. Its meaning is the relation
between what it takes and what it returns.

* `Reader`, `take`, `repeatN`, `loop`: readers, with the loops `for` and `while`;
* `Reads r L`: `r` succeeds exactly on the streams that begin with some `xs` such that `L xs a`, takes
  `xs` and returns `a`. So it accepts nothing else, and does not look at what follows;
* `Reads.bind`, `Reads.repeatN`, `Reads.loop`, ..: how these relations compose;
* `Steady e r`: on a part of a stream `r` does what it does on the whole stream, or fails with `e`.
-/

namespace Decoding

open Loop

/-- From a stream to a value and the rest of the stream. -/
def Reader (ε τ α : Type) : Type := List τ → Except ε (α × List τ)

variable {ε τ α β σ ρ : Type}

instance : Monad (Reader ε τ) where
  pure a s := .ok (a, s)
  bind r f s :=
    match r s with
    | .ok (a, s) => f a s
    | .error e => .error e

def fail (e : ε) : Reader ε τ α := fun _ => .error e

/-- The next `n` items; `e` if there are fewer. -/
def take (e : ε) (n : ℕ) : Reader ε τ (List τ) := fun s =>
  if n ≤ s.length then .ok (s.take n, s.drop n) else .error e

/-- What takes nothing. -/
def lift (x : Except ε α) : Reader ε τ α := fun s =>
  match x with
  | .ok a => .ok (a, s)
  | .error e => .error e

/-- `for (i = 0; i < n; i++) r();` -/
def repeatN (r : Reader ε τ Unit) : ℕ → Reader ε τ Unit
  | 0 => pure ()
  | n + 1 => do
      r
      repeatN r n

/-- A loop, given up with `e` after `n` passes. -/
def run (e : ε) (body : σ → Reader ε τ (Iter σ ρ)) : ℕ → σ → Reader ε τ ρ
  | 0, _ => fail e
  | n + 1, s => do
      match ← body s with
      | .next s' => run e body n s'
      | .done r => pure r

/-- A loop in which every pass takes something makes no more passes than there are items. -/
def loop (e : ε) (body : σ → Reader ε τ (Iter σ ρ)) (s : σ) : Reader ε τ ρ := fun stream =>
  run e body (stream.length + 1) s stream

/-! ### The relation of a reader -/

/-- `L xs a`: the reader takes `xs` and returns `a`. -/
def Reads (r : Reader ε τ α) (L : List τ → α → Prop) : Prop :=
  ∀ s a rest, r s = .ok (a, rest) ↔ ∃ xs, L xs a ∧ s = xs ++ rest

variable {r : Reader ε τ α} {f : α → Reader ε τ β} {L L' : List τ → α → Prop}
  {M : α → List τ → β → Prop} {e : ε}

theorem bind_eq_ok {s rest : List τ} {b : β} :
    (r >>= f) s = .ok (b, rest) ↔ ∃ a s', r s = .ok (a, s') ∧ f a s' = .ok (b, rest) := by
  show (match r s with | .ok (a, s) => f a s | .error e => .error e) = _ ↔ _
  cases r s with
  | error e => simp
  | ok p =>
    obtain ⟨a, s'⟩ := p
    simp

theorem bind_apply_ok {s s' : List τ} {a : α} (h : r s = .ok (a, s')) :
    (r >>= f) s = f a s' := by
  show (match r s with | .ok (a, s) => f a s | .error e => .error e) = _
  rw [h]

theorem bind_apply_error {s : List τ} {e : ε} (h : r s = .error e) : (r >>= f) s = .error e := by
  show (match r s with | .ok (a, s) => f a s | .error e => .error e) = _
  rw [h]

namespace Reads

theorem eq_ok (h : Reads r L) {xs rest : List τ} {a : α} (hL : L xs a) :
    r (xs ++ rest) = .ok (a, rest) :=
  (h _ _ _).2 ⟨xs, hL, rfl⟩

theorem eq_ok_nil (h : Reads r L) {xs : List τ} {a : α} (hL : L xs a) : r xs = .ok (a, []) :=
  (h _ _ _).2 ⟨xs, hL, (List.append_nil xs).symm⟩

theorem congr (h : Reads r L) (hiff : ∀ xs a, L xs a ↔ L' xs a) : Reads r L' := by
  intro s a rest
  rw [h s a rest]
  simp only [hiff]

theorem pure (a : α) : Reads (Pure.pure a : Reader ε τ α) fun xs b => xs = [] ∧ b = a := by
  intro s b rest
  show Except.ok (a, s) = .ok (b, rest) ↔ _
  rw [Except.ok.injEq, Prod.mk.injEq]
  constructor
  · rintro ⟨rfl, rfl⟩
    exact ⟨[], ⟨rfl, rfl⟩, rfl⟩
  · rintro ⟨_, ⟨rfl, rfl⟩, rfl⟩
    exact ⟨rfl, rfl⟩

theorem fail (e : ε) : Reads (Decoding.fail e : Reader ε τ α) fun _ _ => False := by
  intro s a rest
  simp [Decoding.fail]

theorem lift (x : Except ε α) : Reads (Decoding.lift x : Reader ε τ α) fun xs a =>
    xs = [] ∧ x = .ok a := by
  intro s a rest
  cases x with
  | error e => simp [Decoding.lift]
  | ok b =>
    show Except.ok (b, s) = .ok (a, rest) ↔ _
    rw [Except.ok.injEq, Prod.mk.injEq]
    constructor
    · rintro ⟨rfl, rfl⟩
      exact ⟨[], ⟨rfl, rfl⟩, rfl⟩
    · rintro ⟨_, ⟨rfl, h⟩, rfl⟩
      exact ⟨Except.ok.inj h, rfl⟩

theorem take (e : ε) (n : ℕ) : Reads (Decoding.take e n : Reader ε τ (List τ)) fun xs a =>
    xs.length = n ∧ a = xs := by
  intro s a rest
  unfold Decoding.take
  constructor
  · intro h
    split at h
    · next hle =>
      obtain ⟨rfl, rfl⟩ := Prod.mk.inj (Except.ok.inj h)
      exact ⟨s.take n, ⟨List.length_take_of_le hle, rfl⟩, (List.take_append_drop n s).symm⟩
    · cases h
  · rintro ⟨xs, ⟨rfl, rfl⟩, rfl⟩
    simp

/-- **One reader after the other.** -/
theorem bind (h : Reads r L) (hf : ∀ a, Reads (f a) (M a)) :
    Reads (r >>= f) fun zs b => ∃ xs a ys, L xs a ∧ M a ys b ∧ zs = xs ++ ys := by
  intro s b rest
  rw [bind_eq_ok]
  constructor
  · rintro ⟨a, s', hr, hb⟩
    obtain ⟨xs, hxs, rfl⟩ := (h _ _ _).1 hr
    obtain ⟨ys, hys, rfl⟩ := (hf a _ _ _).1 hb
    exact ⟨xs ++ ys, ⟨xs, a, ys, hxs, hys, rfl⟩, (List.append_assoc ..).symm⟩
  · rintro ⟨_, ⟨xs, a, ys, hxs, hys, rfl⟩, rfl⟩
    rw [List.append_assoc]
    exact ⟨a, ys ++ rest, h.eq_ok hxs, (hf a).eq_ok hys⟩

theorem ite {p : Prop} [Decidable p] {r' : Reader ε τ α} (h : p → Reads r L)
    (h' : ¬ p → Reads r' L') :
    Reads (if p then r else r') fun xs a => if p then L xs a else L' xs a := by
  by_cases hp : p
  · simp only [if_pos hp]
    exact h hp
  · simp only [if_neg hp]
    exact h' hp

/-- **The `for` loop** takes one part in every pass. -/
theorem repeatN {r : Reader ε τ Unit} {L : List τ → Unit → Prop} (h : Reads r L) (n : ℕ) :
    Reads (Decoding.repeatN r n) fun xs _ =>
      ∃ parts : List (List τ), parts.length = n ∧ (∀ p ∈ parts, L p ()) ∧ xs = parts.flatten := by
  induction n with
  | zero =>
    refine (Reads.pure ()).congr fun xs a => ?_
    simp [List.length_eq_zero_iff]
  | succ n ih =>
    refine (h.bind fun _ => ih).congr fun zs _ => ?_
    constructor
    · rintro ⟨xs, _, _, hxs, ⟨parts, rfl, hparts, rfl⟩, rfl⟩
      refine ⟨xs :: parts, rfl, ?_, List.flatten_cons.symm⟩
      exact List.forall_mem_cons.2 ⟨hxs, hparts⟩
    · rintro ⟨parts, hlen, hparts, rfl⟩
      obtain ⟨xs, parts, rfl⟩ := List.exists_cons_of_length_eq_add_one hlen
      obtain ⟨hxs, hparts⟩ := List.forall_mem_cons.1 hparts
      exact ⟨xs, (), parts.flatten, hxs, ⟨parts, Nat.succ.inj hlen, hparts, rfl⟩,
        List.flatten_cons⟩

end Reads

/-! ### While loops -/

section While

variable {body : σ → Reader ε τ (Iter σ ρ)} {N : σ → List τ → Iter σ ρ → Prop}

/-- What the passes of a loop take, one after the other. -/
inductive Passes (N : σ → List τ → Iter σ ρ → Prop) : σ → List τ → ρ → Prop
  | done {s : σ} {xs : List τ} {r : ρ} : N s xs (.done r) → Passes N s xs r
  | next {s s' : σ} {xs ys : List τ} {r : ρ} :
      N s xs (.next s') → Passes N s' ys r → Passes N s (xs ++ ys) r

theorem Passes.run_eq (hbody : ∀ s, Reads (body s) (N s)) (hpos : ∀ s xs i, N s xs i → xs ≠ [])
    {s : σ} {xs rest : List τ} {r : ρ} (h : Passes N s xs r) {n : ℕ} (hn : xs.length < n) :
    run e body n s (xs ++ rest) = .ok (r, rest) := by
  induction h generalizing n with
  | done hN =>
    obtain _ | n := n
    · cases hn
    · exact bind_eq_ok.2 ⟨_, _, (hbody _).eq_ok hN, rfl⟩
  | @next s s' xs ys r hN hys ih =>
    obtain _ | n := n
    · cases hn
    · have hlen := List.length_pos_iff.2 (hpos _ _ _ hN)
      rw [List.length_append] at hn
      rw [List.append_assoc]
      exact bind_eq_ok.2 ⟨_, _, (hbody _).eq_ok hN, ih (by omega)⟩

theorem passes_of_run (hbody : ∀ s, Reads (body s) (N s)) {n : ℕ} {s : σ} {stream rest : List τ}
    {r : ρ} (h : run e body n s stream = .ok (r, rest)) :
    ∃ xs, Passes N s xs r ∧ stream = xs ++ rest := by
  induction n generalizing s stream with
  | zero => cases h
  | succ n ih =>
    obtain ⟨i, stream', hi, hrest⟩ := bind_eq_ok.1 h
    obtain ⟨xs, hxs, rfl⟩ := (hbody s _ _ _).1 hi
    cases i with
    | next s' =>
      obtain ⟨ys, hys, rfl⟩ := ih hrest
      exact ⟨xs ++ ys, .next hxs hys, (List.append_assoc ..).symm⟩
    | done r' =>
      obtain ⟨rfl, rfl⟩ := Prod.mk.inj (Except.ok.inj hrest)
      exact ⟨xs, .done hxs, rfl⟩

/-- **The `while` loop** takes what its passes take. -/
theorem Reads.loop (hbody : ∀ s, Reads (body s) (N s)) (hpos : ∀ s xs i, N s xs i → xs ≠ [])
    (s : σ) : Reads (Decoding.loop e body s) (Passes N s) := by
  intro stream r rest
  constructor
  · exact passes_of_run hbody
  · rintro ⟨xs, hxs, rfl⟩
    refine hxs.run_eq hbody hpos ?_
    rw [List.length_append]
    omega

end While

/-! ### Streams that go on -/

/-- A failure that is not for want of items stays the same when more of them come. -/
def Steady (e : ε) (r : Reader ε τ α) : Prop :=
  ∀ s t e', r s = .error e' → e' ≠ e → r (s ++ t) = .error e'

/-- So does a success. -/
theorem Reads.append (h : Reads r L) {s rest : List τ} {a : α} (hr : r s = .ok (a, rest))
    (t : List τ) : r (s ++ t) = .ok (a, rest ++ t) := by
  obtain ⟨xs, hxs, rfl⟩ := (h _ _ _).1 hr
  rw [List.append_assoc]
  exact h.eq_ok hxs

/-- If the whole stream is read, a part of it is too short or is read in the same way. -/
theorem Reads.of_append (hL : Reads r L) (h : Steady e r) {s t rest : List τ} {a : α}
    (hr : r (s ++ t) = .ok (a, rest)) :
    r s = .error e ∨ ∃ rest', r s = .ok (a, rest') ∧ rest' ++ t = rest := by
  cases hs : r s with
  | error e' =>
    refine .inl (congrArg _ (not_not.1 fun hne => ?_))
    rw [h s t e' hs hne] at hr
    cases hr
  | ok p =>
    obtain ⟨a', rest'⟩ := p
    rw [hL.append hs t] at hr
    obtain ⟨rfl, rfl⟩ := Prod.mk.inj (Except.ok.inj hr)
    exact .inr ⟨rest', rfl, rfl⟩

namespace Steady

theorem pure (a : α) : Steady e (Pure.pure a : Reader ε τ α) := fun _ _ _ h => by cases h

theorem fail (e' : ε) : Steady e (Decoding.fail e' : Reader ε τ α) := fun _ _ _ h _ => h

theorem lift (x : Except ε α) : Steady e (Decoding.lift x : Reader ε τ α) := by
  intro s t e' h _
  cases x with
  | ok a => cases h
  | error e'' => exact h

theorem take (n : ℕ) : Steady e (Decoding.take e n : Reader ε τ (List τ)) := by
  intro s t e' h hne
  unfold Decoding.take at h
  split at h
  · cases h
  · exact absurd (Except.error.inj h).symm hne

theorem bind (hL : Reads r L) (h : Steady e r) (hf : ∀ a, Steady e (f a)) :
    Steady e (r >>= f) := by
  intro s t e' hs hne
  cases hr : r s with
  | error e'' =>
    rw [bind_apply_error hr] at hs
    obtain rfl := Except.error.inj hs
    exact bind_apply_error (h s t _ hr hne)
  | ok p =>
    obtain ⟨a, s'⟩ := p
    rw [bind_apply_ok hr] at hs
    rw [bind_apply_ok (hL.append hr t)]
    exact hf a s' t e' hs hne

theorem ite {p : Prop} [Decidable p] {r' : Reader ε τ α} (h : p → Steady e r)
    (h' : ¬ p → Steady e r') : Steady e (if p then r else r') := by
  by_cases hp : p
  · rw [if_pos hp]
    exact h hp
  · rw [if_neg hp]
    exact h' hp

theorem repeatN {r : Reader ε τ Unit} {L : List τ → Unit → Prop} (hL : Reads r L)
    (h : Steady e r) (n : ℕ) : Steady e (Decoding.repeatN r n) := by
  induction n with
  | zero => exact .pure ()
  | succ n ih => exact h.bind hL fun _ => ih

theorem run {body : σ → Reader ε τ (Iter σ ρ)} {N : σ → List τ → Iter σ ρ → Prop}
    (hbody : ∀ s, Reads (body s) (N s)) (h : ∀ s, Steady e (body s)) {n m : ℕ} (hnm : n ≤ m) (s : σ)
    (stream t : List τ) (e' : ε) (hs : Decoding.run e body n s stream = .error e') (hne : e' ≠ e) :
    Decoding.run e body m s (stream ++ t) = .error e' := by
  induction n generalizing m s stream with
  | zero => exact absurd (Except.error.inj hs).symm hne
  | succ n ih =>
    obtain ⟨m, rfl⟩ := Nat.exists_eq_add_of_le' (show 1 ≤ m by omega)
    unfold Decoding.run at hs ⊢
    cases hb : body s stream with
    | error e'' =>
      rw [bind_apply_error hb] at hs
      obtain rfl := Except.error.inj hs
      exact bind_apply_error (h s stream t _ hb hne)
    | ok p =>
      obtain ⟨i, stream'⟩ := p
      rw [bind_apply_ok hb] at hs
      rw [bind_apply_ok ((hbody s).append hb t)]
      cases i with
      | next s' => exact ih (Nat.le_of_succ_le_succ hnm) s' stream' hs
      | done r => cases hs

theorem loop {body : σ → Reader ε τ (Iter σ ρ)} {N : σ → List τ → Iter σ ρ → Prop}
    (hbody : ∀ s, Reads (body s) (N s)) (h : ∀ s, Steady e (body s)) (s : σ) :
    Steady e (Decoding.loop e body s) := by
  intro stream t e' hs hne
  refine run hbody h ?_ s stream t e' hs hne
  rw [List.length_append]
  omega

end Steady

end Decoding
