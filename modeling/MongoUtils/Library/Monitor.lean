import Mathlib.Tactic
import Mathlib.Algebra.BigOperators.Group.Finset.Basic
import Mathlib.Data.Fintype.BigOperators
import Mathlib.Data.Multiset.AddSub
import Mathlib.Logic.Relation

/-!
# Monitors with condition variables

Threads share an object through synchronized methods. A method holds the mutex from its first
line to its return, except in `Wait`, which releases it; so a run is a sequence of critical
sections, each of which either ends asleep on a condition variable or completes the method.

* `Method`, `System`: `while (cond) c.Wait(); body; c'.Notify();` and the threads that call it;
* `Step`: one critical section of a thread, or a spurious wakeup. A signal wakes at least one
  sleeper if there is one (`Signal`), and any thread may enter before a woken one does;
* `Safe`: an invariant of the object and of the log of completed calls. `Safe.reaches` gives it
  in every reachable configuration, together with the assertions of the bodies;
* `Local`: a relation between what one thread has done and its local state. `Local.reaches` gives
  it in every reachable configuration, and `sum_own` puts the threads together.
-/

namespace Monitor

/-- A synchronized method. `wait` is the test of its waiting loop with the condition it waits on,
`body` the rest of the critical section (`none` when an assertion fails) and `notify` the condition
that it signals at the end. -/
structure Method (σ κ ρ : Type*) where
  wait : Option (κ × (σ → Bool))
  body : σ → Option (σ × ρ)
  notify : Option κ

/-- Threads with local states in `L`: the method that a thread is in or calls next (`none` when it
has finished), and its state after the method has returned. -/
structure System (σ κ M ρ L : Type*) where
  method : M → Method σ κ ρ
  call : L → Option M
  resume : L → ρ → L

/-- A thread is outside the monitor, asleep in `Wait`, or woken and about to test again. -/
inductive Status (κ : Type*)
  | ready
  | asleep (k : κ)
  | woken (k : κ)
  deriving DecidableEq

/-- The thread does not sleep. -/
def Status.isAwake {κ : Type*} : Status κ → Bool
  | .asleep _ => false
  | .ready => true
  | .woken _ => true

theorem Status.isAwake_iff {κ : Type*} {st : Status κ} : st.isAwake ↔ ¬ ∃ k, st = .asleep k := by
  cases st <;> simp [Status.isAwake]

/-- A completed call. -/
structure Event (ι M ρ : Type*) where
  thread : ι
  call : M
  result : ρ

/-- The shared object, the threads, the calls completed so far, and whether an assertion failed. -/
structure Config (σ κ M ρ L ι : Type*) where
  shared : σ
  status : ι → Status κ
  loc : ι → L
  log : List (Event ι M ρ)
  aborted : Bool

/-- A thread runs one critical section, or wakes up for no reason. -/
inductive Action (ι : Type*)
  | run (i : ι)
  | spurious (i : ι)

variable {σ κ M ρ L ι : Type*}

/-- The condition on which the method would wait in state `s`. -/
def Method.blockedOn (m : Method σ κ ρ) (s : σ) : Option κ :=
  match m.wait with
  | some (k, cond) => if cond s then some k else none
  | none => none

/-- The effect of a signal on threads of which some are asleep: some of the sleepers are woken, and at
least one if there is one. -/
structure Signal {α : Type*} (asleep woken : α) (st st' : ι → α) : Prop where
  only : ∀ i, st' i = st i ∨ (st i = asleep ∧ st' i = woken)
  wakes : (∃ i, st i = asleep) → ∃ i, st i = asleep ∧ st' i = woken

/-- The effect of `c.Notify();`, if there is such a line. -/
def Notify {α : Type*} (asleep woken : κ → α) : Option κ → (ι → α) → (ι → α) → Prop
  | some k, st, st' => Signal (asleep k) (woken k) st st'
  | none, st, st' => st' = st

/-- The effect of a signal in the monitor. -/
abbrev Signalled (k : κ) (st st' : ι → Status κ) : Prop := Signal (.asleep k) (.woken k) st st'

/-- The effect of the last line of a method. -/
abbrev Notified (n : Option κ) (st st' : ι → Status κ) : Prop := Notify .asleep .woken n st st'

/-- A signal can wake every sleeper. -/
theorem exists_notify {α : Type*} (asleep woken : κ → α) (n : Option κ) (st : ι → α) :
    ∃ st', Notify asleep woken n st st' := by
  classical
  cases n with
  | none => exact ⟨st, rfl⟩
  | some k =>
    refine ⟨fun i => if st i = asleep k then woken k else st i, fun i => ?_, ?_⟩
    · by_cases hi : st i = asleep k
      · exact Or.inr ⟨hi, if_pos hi⟩
      · exact Or.inl (if_neg hi)
    · rintro ⟨i, hi⟩
      exact ⟨i, hi, if_pos hi⟩

/-- Every thread is about to begin. -/
def start (s : σ) (loc : ι → L) : Config σ κ M ρ L ι := ⟨s, fun _ => .ready, loc, [], false⟩

/-- The calls of one thread. -/
def own [DecidableEq ι] (i : ι) (log : List (Event ι M ρ)) : List (Event ι M ρ) :=
  log.filter fun e => e.thread = i

/-- A sum over the threads when one of them changes. -/
theorem sum_update_add [DecidableEq ι] [Fintype ι] {α β : Type*} [AddCommMonoid β] (f : α → β)
    (g : ι → α) (i : ι) (x : α) :
    ∑ t, f (Function.update g i x t) + f (g i) = ∑ t, f (g t) + f x := by
  have hrest : ∑ t ∈ Finset.univ.erase i, f (Function.update g i x t) =
      ∑ t ∈ Finset.univ.erase i, f (g t) :=
    Finset.sum_congr rfl fun t ht => by rw [Function.update_of_ne (Finset.ne_of_mem_erase ht)]
  rw [← Finset.add_sum_erase _ (fun t => f (Function.update g i x t)) (Finset.mem_univ i),
    ← Finset.add_sum_erase _ (fun t => f (g t)) (Finset.mem_univ i), hrest, Function.update_self]
  abel

section Logs

variable [DecidableEq ι]

theorem own_append_self (i : ι) (log : List (Event ι M ρ)) (m : M) (r : ρ) :
    own i (log ++ [⟨i, m, r⟩]) = own i log ++ [⟨i, m, r⟩] := by
  simp [own]

theorem own_append_of_ne {i t : ι} (h : t ≠ i) (log : List (Event ι M ρ)) (m : M) (r : ρ) :
    own i (log ++ [⟨t, m, r⟩]) = own i log := by
  simp [own, h]

/-- The calls of all threads are the calls of each. -/
theorem sum_own [Fintype ι] {β : Type*} (f : Event ι M ρ → Option β) (log : List (Event ι M ρ)) :
    ∑ i, ((own i log).filterMap f : Multiset β) = (log.filterMap f : Multiset β) := by
  induction log with
  | nil => simp [own]
  | cons e log ih =>
    have hcons : ∀ i, ((own i (e :: log)).filterMap f : Multiset β) =
        (if e.thread = i then ([e].filterMap f : Multiset β) else 0) +
          ((own i log).filterMap f : Multiset β) := by
      intro i
      by_cases hi : e.thread = i
      · rw [if_pos hi, Multiset.coe_add, ← List.filterMap_append]
        simp [own, hi]
      · rw [if_neg hi, zero_add]
        simp [own, hi]
    rw [Finset.sum_congr rfl fun i _ => hcons i, Finset.sum_add_distrib, ih,
      Finset.sum_ite_eq, if_pos (Finset.mem_univ _), Multiset.coe_add, ← List.filterMap_append]
    rfl

/-- Calls that only thread `t` makes. -/
theorem filterMap_own {β : Type*} {f : Event ι M ρ → Option β} {log : List (Event ι M ρ)} {t : ι}
    (h : ∀ i, i ≠ t → (own i log).filterMap f = []) :
    (own t log).filterMap f = log.filterMap f := by
  rw [own, List.filterMap_filter]
  refine List.filterMap_congr fun e he => ?_
  by_cases het : e.thread = t
  · simp [het]
  · have hmem : e ∈ own e.thread log := List.mem_filter.2 ⟨he, by simp⟩
    simp [het, List.filterMap_eq_nil_iff.1 (h e.thread het) e hmem]

end Logs

namespace System

variable [DecidableEq ι] (sys : System σ κ M ρ L)

/-- One step. A thread that is not asleep takes the mutex at its waiting loop, whether it calls the
method or was woken in it. -/
inductive Step : Action ι → Config σ κ M ρ L ι → Config σ κ M ρ L ι → Prop
  | wait {c : Config σ κ M ρ L ι} {i : ι} {m : M} {k : κ} : c.aborted = false →
      (c.status i).isAwake → sys.call (c.loc i) = some m →
      (sys.method m).blockedOn c.shared = some k →
      Step (.run i) c { c with status := Function.update c.status i (.asleep k) }
  | finish {c : Config σ κ M ρ L ι} {i : ι} {m : M} {s : σ} {r : ρ} {st : ι → Status κ} :
      c.aborted = false → (c.status i).isAwake → sys.call (c.loc i) = some m →
      (sys.method m).blockedOn c.shared = none → (sys.method m).body c.shared = some (s, r) →
      -- The signal is sent under the mutex: it finds the sleepers of this moment.
      Notified (sys.method m).notify (Function.update c.status i .ready) st →
      Step (.run i) c ⟨s, st, Function.update c.loc i (sys.resume (c.loc i) r),
        c.log ++ [⟨i, m, r⟩], false⟩
  | abort {c : Config σ κ M ρ L ι} {i : ι} {m : M} : c.aborted = false →
      (c.status i).isAwake → sys.call (c.loc i) = some m →
      (sys.method m).blockedOn c.shared = none → (sys.method m).body c.shared = none →
      Step (.run i) c { c with aborted := true }
  | spurious {c : Config σ κ M ρ L ι} {i : ι} {k : κ} : c.aborted = false →
      c.status i = .asleep k →
      Step (.spurious i) c { c with status := Function.update c.status i (.woken k) }

/-- Any number of steps of any threads. -/
def Reaches : Config σ κ M ρ L ι → Config σ κ M ρ L ι → Prop :=
  Relation.ReflTransGen fun c c' => ∃ a, sys.Step a c c'

/-- No thread can run, spurious wakeups aside. -/
def Stuck (c : Config σ κ M ρ L ι) : Prop := ∀ i c', ¬ sys.Step (.run i) c c'

/-- The thread has no call left. -/
def Finished (c : Config σ κ M ρ L ι) (i : ι) : Prop := sys.call (c.loc i) = none

/-- Every unfinished thread is asleep. -/
def AllAsleep (c : Config σ κ M ρ L ι) : Prop :=
  ∀ i, sys.Finished c i ∨ ∃ k, c.status i = .asleep k

variable {sys} {c c' : Config σ κ M ρ L ι}

/-! ### The object and the log -/

/-- An invariant `P` of the object and the log under which no body fails. -/
structure Safe (sys : System σ κ M ρ L) (P : σ → List (Event ι M ρ) → Prop) : Prop where
  runs : ∀ s log m, P s log → (sys.method m).blockedOn s = none →
    (sys.method m).body s ≠ none
  step : ∀ s log i m s' r, P s log → (sys.method m).blockedOn s = none →
    (sys.method m).body s = some (s', r) → P s' (log ++ [⟨i, m, r⟩])

variable {P : σ → List (Event ι M ρ) → Prop}

theorem Safe.next (h : sys.Safe P) {a : Action ι} (hc : P c.shared c.log ∧ c.aborted = false)
    (hs : sys.Step a c c') : P c'.shared c'.log ∧ c'.aborted = false := by
  cases hs with
  | wait _ _ _ _ => exact hc
  | finish _ _ _ hb hbody _ => exact ⟨h.step _ _ _ _ _ _ hc.1 hb hbody, rfl⟩
  | abort _ _ _ hb hbody => exact absurd hbody (h.runs _ _ _ hc.1 hb)
  | spurious _ _ => exact hc

/-- **The invariant holds in every reachable configuration, and no assertion fails.** -/
theorem Safe.reaches (h : sys.Safe P) {s : σ} {loc : ι → L} (h0 : P s [])
    (hr : sys.Reaches (start s loc) c) : P c.shared c.log ∧ c.aborted = false := by
  induction hr with
  | refl => exact ⟨h0, rfl⟩
  | tail _ hs ih => exact h.next ih hs.choose_spec

/-! ### One thread -/

/-- A relation between the calls that a thread has completed and its local state, which each of
its calls preserves. -/
structure Local (sys : System σ κ M ρ L) (J : ι → List (Event ι M ρ) → L → Prop) : Prop where
  step : ∀ i log l m s s' r, J i log l → sys.call l = some m →
    (sys.method m).blockedOn s = none → (sys.method m).body s = some (s', r) →
    J i (log ++ [⟨i, m, r⟩]) (sys.resume l r)

variable {J : ι → List (Event ι M ρ) → L → Prop}

theorem Local.next (h : sys.Local J) {a : Action ι} (hc : ∀ i, J i (own i c.log) (c.loc i))
    (hs : sys.Step a c c') (i : ι) : J i (own i c'.log) (c'.loc i) := by
  cases hs with
  | wait _ _ _ _ => exact hc i
  | @finish _ t m s r st _ _ hcall hb hbody _ =>
    show J i (own i (c.log ++ [⟨t, m, r⟩])) (Function.update c.loc t _ i)
    by_cases hti : t = i
    · subst hti
      rw [own_append_self, Function.update_self]
      exact h.step _ _ _ _ _ _ _ (hc t) hcall hb hbody
    · rw [own_append_of_ne hti, Function.update_of_ne (Ne.symm hti)]
      exact hc i
  | abort _ _ _ _ _ => exact hc i
  | spurious _ _ => exact hc i

/-- **What a thread has done and its local state are related in every reachable configuration.** -/
theorem Local.reaches (h : sys.Local J) {s : σ} {loc : ι → L} (h0 : ∀ i, J i [] (loc i))
    (hr : sys.Reaches (start s loc) c) : ∀ i, J i (own i c.log) (c.loc i) := by
  induction hr with
  | refl => exact h0
  | tail _ hs ih => exact h.next ih hs.choose_spec

end System
end Monitor
