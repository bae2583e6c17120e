import Mathlib.Tactic

/-!
# Independent objects

A program that calls the methods of several objects. Every call goes to one object, sees the state
of this object alone, and changes nothing else; it may fail, and then the program is over.

* `runOne`, `run`: the calls of one object, and those of a program over all objects;
* `own`: what belongs to the calls of one object;
* `run_eq_some_iff`: a run of the program is a run of every object under its own calls. So what an
  object answers, and whether it fails, does not depend on the calls to the other ones.
-/

namespace Objects

variable {ι κ σ ρ : Type*} [DecidableEq ι] (target : κ → ι) (step : κ → σ → Option (σ × ρ))

/-- The calls of one object, with the replies. -/
def runOne : σ → List κ → Option (σ × List ρ)
  | s, [] => some (s, [])
  | s, c :: calls => (step c s).bind fun p => (runOne p.1 calls).map fun q => (q.1, p.2 :: q.2)

/-- The calls of a program, with the replies. -/
def run : (ι → σ) → List κ → Option ((ι → σ) × List ρ)
  | f, [] => some (f, [])
  | f, c :: calls => (step c (f (target c))).bind fun p =>
      (run (Function.update f (target c) p.1) calls).map fun q => (q.1, p.2 :: q.2)

/-- Of things that belong to the calls one by one, those that belong to calls of object `i`. -/
def own (i : ι) : List κ → List ρ → List ρ
  | c :: calls, r :: rs => if target c = i then r :: own i calls rs else own i calls rs
  | _, _ => []

variable {target step} {f f' : ι → σ} {s s' : σ} {c : κ} {calls : List κ} {r : ρ} {rs : List ρ}

theorem runOne_cons : runOne step s (c :: calls) = some (s', rs) ↔
    ∃ t r rs', step c s = some (t, r) ∧ runOne step t calls = some (s', rs') ∧ rs = r :: rs' := by
  simp only [runOne, Option.bind_eq_some_iff, Option.map_eq_some_iff, Prod.exists, Prod.mk.injEq]
  constructor
  · rintro ⟨t, r, hstep, _, rs', hrun, rfl, rfl⟩
    exact ⟨t, r, rs', hstep, hrun, rfl⟩
  · rintro ⟨t, r, rs', hstep, hrun, rfl⟩
    exact ⟨t, r, hstep, s', rs', hrun, rfl, rfl⟩

theorem run_cons : run target step f (c :: calls) = some (f', rs) ↔
    ∃ t r rs', step c (f (target c)) = some (t, r) ∧
      run target step (Function.update f (target c) t) calls = some (f', rs') ∧ rs = r :: rs' := by
  simp only [run, Option.bind_eq_some_iff, Option.map_eq_some_iff, Prod.exists, Prod.mk.injEq]
  constructor
  · rintro ⟨t, r, hstep, _, rs', hrun, rfl, rfl⟩
    exact ⟨t, r, rs', hstep, hrun, rfl⟩
  · rintro ⟨t, r, rs', hstep, hrun, rfl⟩
    exact ⟨t, r, hstep, f', rs', hrun, rfl, rfl⟩

theorem runOne_append {calls' : List κ} : runOne step s (calls ++ calls') = some (s', rs) ↔
    ∃ t rs₁ rs₂, runOne step s calls = some (t, rs₁) ∧ runOne step t calls' = some (s', rs₂) ∧
      rs = rs₁ ++ rs₂ := by
  induction calls generalizing s rs with
  | nil => simp [runOne]
  | cons c calls ih =>
    simp only [List.cons_append, runOne_cons, ih]
    constructor
    · rintro ⟨t, r, _, hstep, ⟨u, rs₁, rs₂, hrun, hrun', rfl⟩, rfl⟩
      exact ⟨u, r :: rs₁, rs₂, ⟨t, r, rs₁, hstep, hrun, rfl⟩, hrun', rfl⟩
    · rintro ⟨u, _, rs₂, ⟨t, r, rs₁, hstep, hrun, rfl⟩, hrun', rfl⟩
      exact ⟨t, r, rs₁ ++ rs₂, hstep, ⟨u, rs₁, rs₂, hrun, hrun', rfl⟩, rfl⟩

theorem runOne_map {κ' : Type*} (g : κ' → κ) (s : σ) (calls : List κ') :
    runOne step s (calls.map g) = runOne (fun c => step (g c)) s calls := by
  induction calls generalizing s with
  | nil => rfl
  | cons c calls ih => simp only [List.map_cons, runOne, ih]

/-- **A run of the program is a run of every object** under its own calls. -/
theorem run_eq_some_iff : run target step f calls = some (f', rs) ↔
    rs.length = calls.length ∧ ∀ i,
      runOne step (f i) (calls.filter fun c => target c = i) =
        some (f' i, own target i calls rs) := by
  induction calls generalizing f rs with
  | nil =>
    simp only [run, Option.some.injEq, Prod.mk.injEq, List.length_nil, List.length_eq_zero_iff,
      List.filter_nil, runOne, own]
    constructor
    · rintro ⟨rfl, rfl⟩
      exact ⟨rfl, fun i => ⟨rfl, trivial⟩⟩
    · rintro ⟨rfl, h⟩
      exact ⟨funext fun i => (h i).1, rfl⟩
  | cons c calls ih =>
    rw [run_cons]
    constructor
    · rintro ⟨t, r, rs', hstep, hrun, rfl⟩
      obtain ⟨hlen, hall⟩ := ih.1 hrun
      refine ⟨by simp [hlen], fun i => ?_⟩
      -- `c` is the first call of its object, and no call of any other.
      by_cases hi : target c = i
      · subst hi
        have hown := hall (target c)
        rw [Function.update_self] at hown
        rw [List.filter_cons_of_pos (by simp), own, if_pos rfl]
        exact runOne_cons.2 ⟨t, r, _, hstep, hown, rfl⟩
      · have hown := hall i
        rw [Function.update_of_ne (Ne.symm hi)] at hown
        rwa [List.filter_cons_of_neg (by simpa using hi), own, if_neg hi]
    · rintro ⟨hlen, hall⟩
      obtain ⟨r, rs', rfl⟩ := List.exists_cons_of_length_eq_add_one hlen
      have hown := hall (target c)
      rw [List.filter_cons_of_pos (by simp), own, if_pos rfl] at hown
      obtain ⟨t, r', _, hstep, hrun, hrs⟩ := runOne_cons.1 hown
      obtain ⟨rfl, rfl⟩ := List.cons.inj hrs
      refine ⟨t, r, rs', hstep, ih.2 ⟨by simpa using hlen, fun i => ?_⟩, rfl⟩
      by_cases hi : target c = i
      · subst hi
        rwa [Function.update_self]
      · have hother := hall i
        rw [List.filter_cons_of_neg (by simpa using hi), own, if_neg hi] at hother
        rwa [Function.update_of_ne (Ne.symm hi)]

end Objects
