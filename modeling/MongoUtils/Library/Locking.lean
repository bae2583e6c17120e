import MongoUtils.Library.Wakeup

/-!
# Synchronized methods, statement by statement

A monitor takes a critical section in one step. Here a thread locks the mutex, tests, waits, runs
the statements of the body one at a time, signals, unlocks and returns, and the other threads run
between any two of these steps. The mutex is error checking, and what the pthread calls return is
dropped by the code, so a failed call has no effect.

* `lock`, `unlock`: the pthread calls on the mutex, with their result;
* `Procedure`, `Phase`, `Step`: a method as its lines, the line that a thread is at, and one line
  of one thread;
* `Orderly`: the mutex is held by the thread that is in a critical section, so that no pthread call
  fails (`reaches_orderly`);
* `Sim`: the monitor with the same procedures in one step each. Its step is taken when a thread has
  tested and goes to sleep, or has run the body and signals (`Sim.next`, `refines`).
-/

namespace Locking

open Monitor

/-! ### The mutex -/

/-- The result of a pthread call on a mutex. -/
inductive Code
  | ok
  | edeadlk
  | eperm
  deriving DecidableEq

/-- The call has failed. -/
def Code.isError : Code → Bool
  | .ok => false
  | .edeadlk => true
  | .eperm => true

/-- `pthread_mutex_lock` of thread `i` when `owner` holds the mutex: it blocks while another thread
does. -/
def lock {ι : Type*} [DecidableEq ι] (i : ι) : Option ι → Option (Option ι × Code)
  | none => some (some i, .ok)
  | some t => if t = i then some (some t, .edeadlk) else none

/-- `pthread_mutex_unlock` of thread `i` when `owner` holds the mutex. -/
def unlock {ι : Type*} [DecidableEq ι] (i : ι) (owner : Option ι) : Option ι × Code :=
  if owner = some i then (none, .ok) else (owner, .eperm)

/-! ### Procedures -/

/-- The effect of a statement on the object and on the local variables of the call: `none` when an
assertion fails. -/
abbrev Statement (σ V : Type*) : Type _ := σ × V → Option (σ × V)

/-- A synchronized method: the guard, `while (cond) c.Wait();`, the statements of `body` over the
local variables `init`, `c'.Notify();` and `return result;`. -/
structure Procedure (σ κ V ρ : Type*) where
  wait : Option (κ × (σ → Bool))
  init : V
  body : List (Statement σ V)
  notify : Option κ
  result : V → ρ

variable {σ κ M V ρ L ι : Type*}

/-- The statements in order. -/
def exec (body : List (Statement σ V)) (x : σ × V) : Option (σ × V) :=
  body.foldlM (fun x st => st x) x

@[simp] theorem exec_nil (x : σ × V) : exec [] x = some x := rfl

theorem exec_cons (st : Statement σ V) (body : List (Statement σ V)) (x : σ × V) :
    exec (st :: body) x = (st x).bind (exec body) := by
  rw [exec, List.foldlM_cons]
  rfl

/-- The critical section in one step. -/
def Procedure.method (p : Procedure σ κ V ρ) : Method σ κ ρ where
  wait := p.wait
  body s := (exec p.body (s, p.init)).map fun x => (x.1, p.result x.2)
  notify := p.notify

/-- The same procedure, with another type of results. -/
def Procedure.map {ρ' : Type*} (f : ρ → ρ') (p : Procedure σ κ V ρ) : Procedure σ κ V ρ' :=
  ⟨p.wait, p.init, p.body, p.notify, f ∘ p.result⟩

/-- Where a thread is. -/
inductive Phase (σ κ V ρ : Type*)
  | outside
  /-- At `Lock()`. -/
  | entering
  /-- At the test of the waiting loop. -/
  | testing
  /-- At `Wait()`. -/
  | waiting (k : κ)
  /-- Asleep in `Wait()`. -/
  | sleeping (k : κ)
  /-- Woken in `Wait()`, which locks the mutex before it returns. -/
  | relocking (k : κ)
  /-- At the first statement of `rest`. -/
  | running (rest : List (Statement σ V)) (v : V)
  /-- At `Unlock()`. -/
  | leaving (r : ρ)
  | returning (r : ρ)

/-- The thread is between `Lock()` and `Unlock()`, and not in `Wait()`. -/
def Phase.holds : Phase σ κ V ρ → Bool
  | testing => true
  | waiting _ => true
  | running _ _ => true
  | leaving _ => true
  | outside => false
  | entering => false
  | sleeping _ => false
  | relocking _ => false
  | returning _ => false

/-- The result of a thread that has run the body and has not returned. -/
def Phase.result? : Phase σ κ V ρ → Option ρ
  | leaving r => some r
  | returning r => some r
  | _ => none

/-- The thread is in a method and has not run the body. -/
def Phase.isPending : Phase σ κ V ρ → Bool
  | outside => false
  | leaving _ => false
  | returning _ => false
  | _ => true

/-- The thread is at a statement of the body. -/
def Phase.isRunning : Phase σ κ V ρ → Bool
  | running _ _ => true
  | _ => false

theorem Phase.holds_of_isRunning {p : Phase σ κ V ρ} (h : p.isRunning) : p.holds := by
  cases p with
  | running rest v => rfl
  | _ => cases h

/-- What the thread is in the monitor: it sleeps from the moment of its test. -/
def Phase.Matches : Phase σ κ V ρ → Status κ → Prop
  | waiting k, st => st = .asleep k
  | sleeping k, st => st = .asleep k
  | _, st => st.isAwake

theorem Phase.eq_of_matches_asleep {p : Phase σ κ V ρ} {k : κ} (h : p.Matches (.asleep k)) :
    p = .waiting k ∨ p = .sleeping k := by
  cases p with
  | waiting k' => exact Or.inl (by rw [Status.asleep.inj h])
  | sleeping k' => exact Or.inr (by rw [Status.asleep.inj h])
  | _ => cases h

/-- Threads with local states in `L`, as in `Monitor.System`. -/
structure Program (σ κ M V ρ L : Type*) where
  procedure : M → Procedure σ κ V ρ
  call : L → Option M
  resume : L → ρ → L

/-- The local state of a thread that has run the body is that after its return. -/
def Program.after (P : Program σ κ M V ρ L) (p : Phase σ κ V ρ) (l : L) : L :=
  p.result?.elim l (P.resume l)

/-- The program with its critical sections in one step. -/
def Program.monitor (P : Program σ κ M V ρ L) : System σ κ M ρ L :=
  ⟨fun m => (P.procedure m).method, P.call, P.resume⟩

/-- A call or a return, as the callers see it. -/
inductive Mark (ι M ρ : Type*)
  | invoke (i : ι) (m : M)
  | respond (i : ι) (m : M) (r : ρ)

section Histories

variable [DecidableEq ι]

/-- The methods that thread `i` has called. -/
def invoked (i : ι) (H : List (Mark ι M ρ)) : List M :=
  H.filterMap fun
    | .invoke t m => if t = i then some m else none
    | .respond _ _ _ => none

/-- The calls from which thread `i` has returned. -/
def returned (i : ι) (H : List (Mark ι M ρ)) : List (Event ι M ρ) :=
  H.filterMap fun
    | .invoke _ _ => none
    | .respond t m r => if t = i then some ⟨t, m, r⟩ else none

section Projections

variable (i : ι) (H : List (Mark ι M ρ)) (t : ι) (m : M) (r : ρ)

@[simp] theorem returned_append_invoke : returned i (H ++ [.invoke t m]) = returned i H := by
  simp [returned]

@[simp] theorem invoked_append_respond : invoked i (H ++ [.respond t m r]) = invoked i H := by
  simp [invoked]

theorem invoked_append_self : invoked i (H ++ [.invoke i m]) = invoked i H ++ [m] := by
  simp [invoked]

theorem returned_append_self :
    returned i (H ++ [.respond i m r]) = returned i H ++ [⟨i, m, r⟩] := by
  simp [returned]

variable {i H t m r}

theorem invoked_append_of_ne (h : t ≠ i) : invoked i (H ++ [.invoke t m]) = invoked i H := by
  simp [invoked, h]

theorem returned_append_of_ne (h : t ≠ i) :
    returned i (H ++ [.respond t m r]) = returned i H := by
  simp [returned, h]

end Projections

/-- The sequence `log` explains the history `H`: every operation takes effect at a moment between
its call and its return. At every moment of `H`, those that have taken effect include the calls
that have returned, with their results, and only calls that have been made. -/
def Linearizes (log : List (Event ι M ρ)) (H : List (Mark ι M ρ)) : Prop :=
  ∀ H₁, H₁ <+: H → ∃ log₁, log₁ <+: log ∧
    ∀ i, returned i H₁ <+: own i log₁ ∧ (own i log₁).map Event.call <+: invoked i H₁

theorem Linearizes.nil : Linearizes ([] : List (Event ι M ρ)) [] := by
  intro H₁ h
  obtain rfl := List.prefix_nil.1 h
  exact ⟨[], List.prefix_rfl, fun i => ⟨List.prefix_rfl, List.prefix_rfl⟩⟩

/-- Time goes on, with an operation or none, and with a call, a return, or none. -/
theorem Linearizes.next {log log' : List (Event ι M ρ)} {H H' : List (Mark ι M ρ)}
    (h : Linearizes log H) (hlog : log <+: log') (hH : H' = H ∨ ∃ x, H' = H ++ [x])
    (hnow : ∀ i, returned i H' <+: own i log' ∧ (own i log').map Event.call <+: invoked i H') :
    Linearizes log' H' := by
  intro H₁ h₁
  by_cases hend : H₁ = H'
  · subst hend
    exact ⟨log', List.prefix_rfl, hnow⟩
  · have hold : H₁ <+: H := by
      rcases hH with rfl | ⟨x, rfl⟩
      · exact h₁
      · exact (List.prefix_concat_iff.1 h₁).resolve_left hend
    obtain ⟨log₁, hlog₁, hi⟩ := h H₁ hold
    exact ⟨log₁, hlog₁.trans hlog, hi⟩

/-- One operation after the other takes the object from `a` to `b`. -/
inductive Legal {α : Type*} (spec : M → α → ρ → α → Prop) (a : α) :
    List (Event ι M ρ) → α → Prop
  | nil : Legal spec a [] a
  | snoc {log : List (Event ι M ρ)} {e : Event ι M ρ} {b b' : α} :
      Legal spec a log b → spec e.call b e.result b' → Legal spec a (log ++ [e]) b'

end Histories

/-- The object, the owner of the mutex, the threads, the calls and returns so far, and whether a
pthread call has failed and an assertion has. -/
structure Config (σ κ M V ρ L ι : Type*) where
  shared : σ
  owner : Option ι
  phase : ι → Phase σ κ V ρ
  loc : ι → L
  history : List (Mark ι M ρ)
  failed : Bool
  aborted : Bool

/-- The effect of a signal: a woken thread is about to lock the mutex. -/
abbrev Signalled (k : κ) (ph ph' : ι → Phase σ κ V ρ) : Prop :=
  Signal (.sleeping k) (.relocking k) ph ph'

/-- The effect of `c.Notify();`, if the method has that line. -/
abbrev Notified (n : Option κ) (ph ph' : ι → Phase σ κ V ρ) : Prop :=
  Notify .sleeping .relocking n ph ph'

/-- Every thread is about to begin. -/
def start (s : σ) (loc : ι → L) : Config σ κ M V ρ L ι :=
  ⟨s, none, fun _ => .outside, loc, [], false, false⟩

section Signals

variable {n : Option κ} {ph ph' : ι → Phase σ κ V ρ}

theorem Notified.eq_or_woken (h : Notified n ph ph') (i : ι) :
    ph' i = ph i ∨ ∃ k, ph i = .sleeping k ∧ ph' i = .relocking k := by
  cases n with
  | none => exact Or.inl (congrFun h i)
  | some k => exact ((show Signalled k ph ph' from h).only i).imp_right fun h => ⟨k, h⟩

/-- A signal moves no thread into a critical section or out of one. -/
theorem Notified.holds_eq (h : Notified n ph ph') (i : ι) : (ph' i).holds = (ph i).holds := by
  rcases h.eq_or_woken i with heq | ⟨k, hs, hw⟩
  · rw [heq]
  · rw [hs, hw]
    rfl

theorem Notified.result?_eq (h : Notified n ph ph') (i : ι) :
    (ph' i).result? = (ph i).result? := by
  rcases h.eq_or_woken i with heq | ⟨k, hs, hw⟩
  · rw [heq]
  · rw [hs, hw]
    rfl

theorem Notified.isPending_eq (h : Notified n ph ph') (i : ι) :
    (ph' i).isPending = (ph i).isPending := by
  rcases h.eq_or_woken i with heq | ⟨k, hs, hw⟩
  · rw [heq]
  · rw [hs, hw]
    rfl

theorem Notified.eq_of (h : Notified n ph ph') {i : ι} {p : Phase σ κ V ρ} (hi : ph i = p)
    (hp : ∀ k, p ≠ .sleeping k) : ph' i = p := by
  rcases h.eq_or_woken i with heq | ⟨k, hs, -⟩
  · rw [heq, hi]
  · exact absurd (hi.symm.trans hs) (hp k)

/-- The same threads are woken in the monitor, when no thread is between its test and its sleep. -/
theorem Notified.exists_matches (h : Notified n ph ph') {st : ι → Status κ}
    (hst : ∀ i, (ph i).Matches (st i)) (hw : ∀ i k, ph i ≠ .waiting k) :
    ∃ st', Monitor.Notified n st st' ∧ ∀ i, (ph' i).Matches (st' i) := by
  cases n with
  | none =>
    obtain rfl : ph' = ph := h
    exact ⟨st, rfl, hst⟩
  | some k =>
    have hsig : Signalled k ph ph' := h
    have hone : ∀ i, ∃ x, (x = st i ∨ (st i = .asleep k ∧ x = .woken k)) ∧ (ph' i).Matches x := by
      intro i
      rcases hsig.only i with heq | ⟨hs, hw⟩
      · exact ⟨st i, Or.inl rfl, heq ▸ hst i⟩
      · have hi := hst i
        rw [hs] at hi
        exact ⟨.woken k, Or.inr ⟨hi, rfl⟩, by rw [hw]; rfl⟩
    choose st' honly hmatch using hone
    refine ⟨st', ⟨honly, ?_⟩, hmatch⟩
    rintro ⟨i, hi⟩
    -- The sleeper of the monitor sleeps in the program, so that the signal finds one.
    have hsleep : ph i = .sleeping k :=
      (Phase.eq_of_matches_asleep (hi ▸ hst i)).resolve_left (hw i k)
    obtain ⟨t, ht, htw⟩ := hsig.wakes ⟨i, hsleep⟩
    have hasleep : st t = .asleep k := by
      have hm := hst t
      rwa [ht] at hm
    refine ⟨t, hasleep, ?_⟩
    rcases honly t with heq | ⟨-, hw⟩
    · have hm := hmatch t
      rw [htw, heq, hasleep] at hm
      cases hm
    · exact hw

end Signals

namespace Program

variable [DecidableEq ι] (P : Program σ κ M V ρ L)

/-- One line of one thread. -/
inductive Step : Action ι → Config σ κ M V ρ L ι → Config σ κ M V ρ L ι → Prop
  | invoke {f : Config σ κ M V ρ L ι} {i : ι} {m : M} : f.aborted = false →
      f.phase i = .outside → P.call (f.loc i) = some m →
      Step (.run i) f { f with
        phase := Function.update f.phase i .entering
        history := f.history ++ [.invoke i m] }
  | lock {f : Config σ κ M V ρ L ι} {i : ι} {o : Option ι} {code : Code} : f.aborted = false →
      f.phase i = .entering → lock i f.owner = some (o, code) →
      Step (.run i) f { f with
        owner := o
        phase := Function.update f.phase i .testing
        failed := f.failed || code.isError }
  | block {f : Config σ κ M V ρ L ι} {i : ι} {m : M} {k : κ} : f.aborted = false →
      f.phase i = .testing → P.call (f.loc i) = some m →
      (P.procedure m).method.blockedOn f.shared = some k →
      Step (.run i) f { f with phase := Function.update f.phase i (.waiting k) }
  -- `pthread_cond_wait` unlocks the mutex and sleeps in one step, or returns at once.
  | wait {f : Config σ κ M V ρ L ι} {i : ι} {k : κ} : f.aborted = false →
      f.phase i = .waiting k →
      Step (.run i) f { f with
        owner := (unlock i f.owner).1
        phase := Function.update f.phase i
          (if (unlock i f.owner).2.isError then .testing else .sleeping k)
        failed := f.failed || (unlock i f.owner).2.isError }
  | spurious {f : Config σ κ M V ρ L ι} {i : ι} {k : κ} : f.aborted = false →
      f.phase i = .sleeping k →
      Step (.spurious i) f { f with phase := Function.update f.phase i (.relocking k) }
  | relock {f : Config σ κ M V ρ L ι} {i : ι} {k : κ} {o : Option ι} {code : Code} :
      f.aborted = false → f.phase i = .relocking k → Locking.lock i f.owner = some (o, code) →
      Step (.run i) f { f with
        owner := o
        phase := Function.update f.phase i .testing
        failed := f.failed || code.isError }
  | enter {f : Config σ κ M V ρ L ι} {i : ι} {m : M} : f.aborted = false →
      f.phase i = .testing → P.call (f.loc i) = some m →
      (P.procedure m).method.blockedOn f.shared = none →
      Step (.run i) f { f with
        phase := Function.update f.phase i
          (.running (P.procedure m).body (P.procedure m).init) }
  | exec {f : Config σ κ M V ρ L ι} {i : ι} {st : Statement σ V} {rest : List (Statement σ V)}
      {v v' : V} {s : σ} : f.aborted = false →
      f.phase i = .running (st :: rest) v → st (f.shared, v) = some (s, v') →
      Step (.run i) f { f with
        shared := s
        phase := Function.update f.phase i (.running rest v') }
  | abort {f : Config σ κ M V ρ L ι} {i : ι} {st : Statement σ V} {rest : List (Statement σ V)}
      {v : V} : f.aborted = false →
      f.phase i = .running (st :: rest) v → st (f.shared, v) = none →
      Step (.run i) f { f with aborted := true }
  | notify {f : Config σ κ M V ρ L ι} {i : ι} {m : M} {v : V} {ph : ι → Phase σ κ V ρ} :
      f.aborted = false → f.phase i = .running [] v → P.call (f.loc i) = some m →
      Notified (P.procedure m).notify
        (Function.update f.phase i (.leaving ((P.procedure m).result v))) ph →
      Step (.run i) f { f with phase := ph }
  | unlock {f : Config σ κ M V ρ L ι} {i : ι} {r : ρ} : f.aborted = false →
      f.phase i = .leaving r →
      Step (.run i) f { f with
        owner := (Locking.unlock i f.owner).1
        phase := Function.update f.phase i (.returning r)
        failed := f.failed || (Locking.unlock i f.owner).2.isError }
  | respond {f : Config σ κ M V ρ L ι} {i : ι} {m : M} {r : ρ} : f.aborted = false →
      f.phase i = .returning r → P.call (f.loc i) = some m →
      Step (.run i) f { f with
        phase := Function.update f.phase i .outside
        loc := Function.update f.loc i (P.resume (f.loc i) r)
        history := f.history ++ [.respond i m r] }

/-- Any number of lines of any threads. -/
def Reaches : Config σ κ M V ρ L ι → Config σ κ M V ρ L ι → Prop :=
  Relation.ReflTransGen fun f f' => ∃ a, P.Step a f f'

/-- No thread can run, spurious wakeups aside. -/
def Stuck (f : Config σ κ M V ρ L ι) : Prop := ∀ i f', ¬ P.Step (.run i) f f'

/-- The thread has returned from its last call. -/
def Finished (f : Config σ κ M V ρ L ι) (i : ι) : Prop :=
  f.phase i = .outside ∧ P.call (f.loc i) = none

variable {P} {f f' : Config σ κ M V ρ L ι}

/-! ### Mutual exclusion -/

/-- No pthread call has failed, the owner of the mutex is the thread in a critical section, and a
thread in a method knows which. -/
structure Orderly (P : Program σ κ M V ρ L) (f : Config σ κ M V ρ L ι) : Prop where
  failed : f.failed = false
  owner : ∀ i, f.owner = some i ↔ (f.phase i).holds
  inCall : ∀ i, f.phase i = .outside ∨ ∃ m, P.call (f.loc i) = some m

omit [DecidableEq ι] in
theorem Orderly.call (h : P.Orderly f) {i : ι} {p : Phase σ κ V ρ} (hp : f.phase i = p)
    (hne : p ≠ .outside) : ∃ m, P.call (f.loc i) = some m :=
  (h.inCall i).resolve_left fun h => hne (hp ▸ h)

omit [DecidableEq ι] in
/-- At most one thread is in a critical section. -/
theorem Orderly.eq_of_holds (h : P.Orderly f) {i t : ι} (hi : (f.phase i).holds)
    (ht : (f.phase t).holds) : i = t :=
  Option.some.inj (((h.owner i).2 hi).symm.trans ((h.owner t).2 ht))

/-- A thread that does not hold the mutex gets it if nobody holds it, and else waits. -/
theorem Orderly.lock_eq (h : P.Orderly f) {i : ι} (hi : (f.phase i).holds = false) {o : Option ι}
    {code : Code} (hlock : lock i f.owner = some (o, code)) :
    f.owner = none ∧ o = some i ∧ code = .ok := by
  cases hown : f.owner with
  | none =>
    rw [hown] at hlock
    cases hlock
    exact ⟨rfl, rfl, rfl⟩
  | some t =>
    rw [hown, lock] at hlock
    have hti : t ≠ i := by
      rintro rfl
      rw [(h.owner t).1 hown] at hi
      cases hi
    rw [if_neg hti] at hlock
    cases hlock

/-- A thread that holds the mutex releases it. -/
theorem Orderly.unlock_eq (h : P.Orderly f) {i : ι} (hi : (f.phase i).holds) :
    Locking.unlock i f.owner = (none, .ok) := by
  rw [Locking.unlock, if_pos ((h.owner i).2 hi)]

/-- The thread moves on and takes or leaves no mutex. -/
theorem Orderly.owner_update (h : P.Orderly f) {i : ι} {p : Phase σ κ V ρ}
    (hp : p.holds = (f.phase i).holds) (t : ι) :
    f.owner = some t ↔ (Function.update f.phase i p t).holds := by
  rw [h.owner t]
  rcases eq_or_ne t i with rfl | hti
  · rw [Function.update_self, hp]
  · rw [Function.update_of_ne hti]

theorem Orderly.owner_acquire (h : P.Orderly f) (hown : f.owner = none) {i : ι}
    {p : Phase σ κ V ρ} (hp : p.holds) (t : ι) :
    some i = some t ↔ (Function.update f.phase i p t).holds := by
  rcases eq_or_ne t i with rfl | hti
  · rw [Function.update_self]
    exact iff_of_true rfl hp
  · rw [Function.update_of_ne hti, ← h.owner t, hown]
    exact iff_of_false (fun h => hti (Option.some.inj h).symm) nofun

theorem Orderly.owner_release (h : P.Orderly f) {i : ι} (hi : (f.phase i).holds)
    {p : Phase σ κ V ρ} (hp : p.holds = false) (t : ι) :
    (none : Option ι) = some t ↔ (Function.update f.phase i p t).holds := by
  rcases eq_or_ne t i with rfl | hti
  · rw [Function.update_self, hp]
    exact iff_of_false nofun nofun
  · rw [Function.update_of_ne hti]
    exact iff_of_false nofun fun ht => hti (h.eq_of_holds ht hi)

theorem Orderly.inCall_update (h : P.Orderly f) {i : ι} (hi : f.phase i ≠ .outside)
    (p : Phase σ κ V ρ) (t : ι) :
    Function.update f.phase i p t = .outside ∨ ∃ m, P.call (f.loc t) = some m := by
  rcases eq_or_ne t i with rfl | hti
  · exact Or.inr ((h.inCall t).resolve_left hi)
  · rw [Function.update_of_ne hti]
    exact h.inCall t

theorem Orderly.next (h : P.Orderly f) {a : Action ι} (hs : P.Step a f f') : P.Orderly f' := by
  cases hs with
  | @invoke _ i m _ hp hm =>
    refine ⟨h.failed, h.owner_update (by rw [hp]; rfl), fun t => ?_⟩
    rcases eq_or_ne t i with rfl | hti
    · exact Or.inr ⟨m, hm⟩
    · simp only [Function.update_of_ne hti]
      exact h.inCall t
  | @lock _ i o code _ hp hlock =>
    obtain ⟨hown, rfl, rfl⟩ := h.lock_eq (by rw [hp]; rfl) hlock
    exact ⟨by simp [h.failed, Code.isError], h.owner_acquire hown rfl,
      h.inCall_update (by rw [hp]; nofun) _⟩
  | block _ hp _ _ =>
    exact ⟨h.failed, h.owner_update (by rw [hp]; rfl), h.inCall_update (by rw [hp]; nofun) _⟩
  | @wait _ i k _ hp =>
    have hi : (f.phase i).holds := by rw [hp]; rfl
    rw [h.unlock_eq hi]
    exact ⟨by simp [h.failed, Code.isError], h.owner_release hi rfl,
      h.inCall_update (by rw [hp]; nofun) _⟩
  | spurious _ hp =>
    exact ⟨h.failed, h.owner_update (by rw [hp]; rfl), h.inCall_update (by rw [hp]; nofun) _⟩
  | @relock _ i k o code _ hp hlock =>
    obtain ⟨hown, rfl, rfl⟩ := h.lock_eq (by rw [hp]; rfl) hlock
    exact ⟨by simp [h.failed, Code.isError], h.owner_acquire hown rfl,
      h.inCall_update (by rw [hp]; nofun) _⟩
  | enter _ hp _ _ =>
    exact ⟨h.failed, h.owner_update (by rw [hp]; rfl), h.inCall_update (by rw [hp]; nofun) _⟩
  | exec _ hp _ =>
    exact ⟨h.failed, h.owner_update (by rw [hp]; rfl), h.inCall_update (by rw [hp]; nofun) _⟩
  | abort _ _ _ => exact ⟨h.failed, h.owner, h.inCall⟩
  | @notify _ i m v ph _ hp hm hn =>
    -- A thread that is woken does not hold the mutex yet.
    refine ⟨h.failed, fun t => ?_, fun t => ?_⟩
    · rw [hn.holds_eq t]
      exact h.owner_update (by rw [hp]; rfl) t
    · rcases h.inCall_update (by rw [hp]; nofun) (.leaving ((P.procedure m).result v)) t with
        hout | hcall
      · exact Or.inl (hn.eq_of hout nofun)
      · exact Or.inr hcall
  | @unlock _ i r _ hp =>
    have hi : (f.phase i).holds := by rw [hp]; rfl
    rw [h.unlock_eq hi]
    exact ⟨by simp [h.failed, Code.isError], h.owner_release hi rfl,
      h.inCall_update (by rw [hp]; nofun) _⟩
  | @respond _ i m r _ hp _ =>
    refine ⟨h.failed, h.owner_update (by rw [hp]; rfl), fun t => ?_⟩
    rcases eq_or_ne t i with rfl | hti
    · exact Or.inl (Function.update_self ..)
    · simp only [Function.update_of_ne hti]
      exact h.inCall t

/-- **The mutex excludes, and no pthread call fails.** -/
theorem reaches_orderly {s : σ} {loc : ι → L} (hr : P.Reaches (start s loc) f) : P.Orderly f := by
  induction hr with
  | refl => exact ⟨rfl, fun i => iff_of_false nofun nofun, fun i => Or.inl rfl⟩
  | tail _ hs ih => exact ih.next hs.choose_spec

end Program
end Locking
