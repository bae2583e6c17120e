import MongoUtils.Base.BlockingQueue
import MongoUtils.Library.Progress

/-!
# The queues line by line

`put` and `take` once more, with the other methods of the queues, as the lines of
`base/blocking_queue.h`. `MutexLockGuard` calls `Lock()` on the first line and `Unlock()` after the
value to return has been copied, and `Condition::Wait` and `Notify` are the pthread calls
(`base/mutex.h`).

* `BlockingQueue.procedure`, `BoundedBlockingQueue.procedure`: the methods;
* `Spec`: what each method does to the queue when it runs alone (`BlockingQueue.spec`,
  `BoundedBlockingQueue.spec`);
* `queues_linearizable`: however the lines of the threads are interleaved, the queue answers as if every
  call took effect in one step between its beginning and its return;
* `BoundedBlockingQueue.method_eq`: the critical sections of `BlockingQueue.lean` are these lines.
-/

namespace MongoUtils
namespace Base

open Monitor Locking

variable {σ T V L ι : Type*} {K : ℕ}

/-- What a method returns; before that, its local variable `front`. -/
inductive Reply (T : Type*)
  | done
  | value (x : T)
  | flag (b : Bool)
  | count (n : ℕ)
  deriving DecidableEq

/-- `assert(cond);` -/
def assert (cond : σ → Bool) : Statement σ V := fun x => if cond x.1 then some x else none

/-- The lines of `empty`, `full`, `size` and `capacity`: `return e;` under the mutex. -/
def observer (e : σ → Reply T) : Procedure σ Cond (Reply T) (Reply T) where
  wait := none
  init := .done
  body := [fun x => some (x.1, e x.1)]
  notify := none
  result := id

/-! ### `BlockingQueue` -/

namespace BlockingQueue

/-- A call of a method of `BlockingQueue<T>`. -/
inductive Op (T : Type*)
  | put (x : T)
  | take
  | size
  deriving DecidableEq

/-- The lines of `put`, `take` and `size`. -/
def procedure : Op T → Procedure (List T) Cond (Reply T) (Reply T)
  | .put x => {
      wait := none
      init := .done
      body := [fun (queue, v) => some (queue ++ [x], v)]
      notify := some .notEmpty
      result := id }
  | .take => {
      wait := some (.notEmpty, List.isEmpty)
      init := .done
      body := [
        assert fun queue => !queue.isEmpty,
        fun (queue, _) => queue.head?.map fun front => (queue, .value front),
        fun (queue, v) => some (queue.tail, v)]
      notify := none
      result := id }
  | .size => observer fun queue => .count queue.length

/-- The methods when they run alone. -/
inductive Spec : Op T → List T → Reply T → List T → Prop
  | put (x : T) (items : List T) : Spec (.put x) items .done (items ++ [x])
  | take (front : T) (rest : List T) : Spec .take (front :: rest) (.value front) rest
  | size (items : List T) : Spec .size items (.count items.length) items

/-- The threads that share a `BlockingQueue<T>`. -/
def program (call : L → Option (Op T)) (resume : L → Reply T → L) :
    Program (List T) Cond (Op T) (Reply T) (Reply T) L :=
  ⟨procedure, call, resume⟩

theorem spec {m : Op T} {queue : List T} (h : (procedure m).method.blockedOn queue = none) :
    ∃ queue' r, (procedure m).method.body queue = some (queue', r) ∧ Spec m queue r queue' := by
  cases m with
  | put x => exact ⟨_, _, rfl, .put x queue⟩
  | take =>
    cases queue with
    | nil => cases h
    | cons front rest => exact ⟨_, _, rfl, .take front rest⟩
  | size => exact ⟨_, _, rfl, .size queue⟩

end BlockingQueue

/-! ### `BoundedBlockingQueue` -/

namespace BoundedBlockingQueue

/-- A call of a method of `BoundedBlockingQueue<T>`. -/
inductive Op (T : Type*)
  | put (x : T)
  | take
  | empty
  | full
  | size
  | capacity
  deriving DecidableEq

/-- The lines of the methods of a queue of capacity `K`. -/
def procedure (K : ℕ) : Op T → Procedure (CircularBuffer T K) Cond (Reply T) (Reply T)
  | .put x => {
      wait := some (.notFull, CircularBuffer.full)
      init := .done
      body := [
        assert fun queue => !queue.full,
        fun (queue, v) => some (queue.pushBack x, v)]
      notify := some .notEmpty
      result := id }
  | .take => {
      wait := some (.notEmpty, CircularBuffer.empty)
      init := .done
      body := [
        assert fun queue => !queue.empty,
        fun (queue, _) => queue.front?.map fun front => (queue, .value front),
        fun (queue, v) => some (queue.popFront, v)]
      notify := some .notFull
      result := id }
  | .empty => observer fun queue => .flag queue.empty
  | .full => observer fun queue => .flag queue.full
  | .size => observer fun queue => .count queue.items.length
  | .capacity => observer fun _ => .count K

/-- The methods when they run alone. -/
inductive Spec (K : ℕ) : Op T → List T → Reply T → List T → Prop
  | put (x : T) (items : List T) : items.length < K → Spec K (.put x) items .done (items ++ [x])
  | take (front : T) (rest : List T) : Spec K .take (front :: rest) (.value front) rest
  | empty (items : List T) : Spec K .empty items (.flag items.isEmpty) items
  | full (items : List T) : Spec K .full items (.flag (items.length == K)) items
  | size (items : List T) : Spec K .size items (.count items.length) items
  | capacity (items : List T) : Spec K .capacity items (.count K) items

/-- The threads that share a `BoundedBlockingQueue<T>(K)`. -/
def program (K : ℕ) (call : L → Option (Op T)) (resume : L → Reply T → L) :
    Program (CircularBuffer T K) Cond (Op T) (Reply T) (Reply T) L :=
  ⟨procedure K, call, resume⟩

theorem spec {m : Op T} {q : CircularBuffer T K}
    (h : (procedure K m).method.blockedOn q = none) :
    ∃ q' r, (procedure K m).method.body q = some (q', r) ∧ Spec K m q.items r q'.items := by
  cases m with
  | put x =>
    have hfull : q.full = false := by
      simpa [procedure, Procedure.method, Method.blockedOn] using h
    have hlt := CircularBuffer.full_eq_false.1 hfull
    refine ⟨q.pushBack x, .done, ?_, ?_⟩
    · simp [procedure, Procedure.method, exec_cons, assert, hfull]
    · rw [CircularBuffer.pushBack_of_lt hlt]
      exact .put x q.items hlt
  | take =>
    have hempty : q.empty = false := by
      simpa [procedure, Procedure.method, Method.blockedOn] using h
    obtain ⟨items, overwritten, hle⟩ := q
    cases items with
    | nil => cases hempty
    | cons front rest => exact ⟨_, _, rfl, .take front rest⟩
  | empty => exact ⟨_, _, rfl, .empty q.items⟩
  | full => exact ⟨_, _, rfl, .full q.items⟩
  | size => exact ⟨_, _, rfl, .size q.items⟩
  | capacity => exact ⟨_, _, rfl, .capacity q.items⟩

end BoundedBlockingQueue

/-! ### Every call takes effect in one step -/

section Programs

variable [DecidableEq ι]

/-- **The queues are linearizable**: whatever calls the threads make and however their lines are
interleaved, no assertion and no pthread call fails, and the calls and returns are those of an
execution of the methods one after the other, in which every call takes effect between its
beginning and its return. The queue has the contents that this execution leaves whenever the mutex
is free. -/
theorem queues_linearizable (loc : ι → L) :
    (∀ (call : L → Option (BlockingQueue.Op T)) (resume : L → Reply T → L) f,
      (BlockingQueue.program call resume).Reaches (Locking.start [] loc) f →
        f.aborted = false ∧ f.failed = false ∧
          ∃ log items, Legal BlockingQueue.Spec [] log items ∧ Linearizes log f.history ∧
            (f.owner = none → f.shared = items)) ∧
    ∀ K (call : L → Option (BoundedBlockingQueue.Op T)) (resume : L → Reply T → L) f,
      (BoundedBlockingQueue.program K call resume).Reaches (Locking.start .new loc) f →
        f.aborted = false ∧ f.failed = false ∧
          ∃ log items, Legal (BoundedBlockingQueue.Spec K) [] log items ∧
            Linearizes log f.history ∧ (f.owner = none → f.shared.items = items) := by
  constructor
  · intro call resume f hr
    exact Program.linearizable_of_spec id (fun _ _ h => BlockingQueue.spec h) hr
  · intro K call resume f hr
    exact Program.linearizable_of_spec CircularBuffer.items
      (fun _ _ h => BoundedBlockingQueue.spec h) hr

/-- A thread that puts `5` and a thread that asks for the size. -/
def putAndSize : Fin 2 → List (BoundedBlockingQueue.Op ℕ) := ![[.put 5], [.size]]

/-- `5` is put while the other thread is at `Lock()`. -/
theorem reaches_putAndSize :
    ∃ f, (BoundedBlockingQueue.program 1 List.head? fun calls (_ : Reply ℕ) => calls.tail).Reaches
        (Locking.start .new putAndSize) f ∧
      f.owner = none ∧ f.shared.items = [5] ∧
      f.history = [.invoke 1 .size, .invoke 0 (.put 5), .respond 0 (.put 5) .done] := by
  set P := BoundedBlockingQueue.program 1 List.head? fun calls (_ : Reply ℕ) => calls.tail with hP
  have h0 : P.Reaches (Locking.start .new putAndSize) (Locking.start .new putAndSize) := .refl
  have h1 := h0.tail ⟨.run 1, .invoke rfl rfl rfl⟩
  have h2 := h1.tail ⟨.run 0, .invoke rfl rfl rfl⟩
  have h3 := h2.tail ⟨.run 0, .lock rfl rfl rfl⟩
  have h4 := h3.tail ⟨.run 0, .enter rfl rfl rfl rfl⟩
  have h5 := h4.tail ⟨.run 0, .exec rfl rfl rfl⟩
  have h6 := h5.tail ⟨.run 0, .exec rfl rfl rfl⟩
  have h7 := h6.tail ⟨.run 0, .notify rfl rfl rfl
    (show Locking.Signalled Cond.notEmpty _ _ from ⟨fun i => Or.inl rfl, ?_⟩)⟩
  · have h8 := h7.tail ⟨.run 0, .unlock rfl rfl⟩
    exact ⟨_, h8.tail ⟨.run 0, .respond rfl rfl rfl⟩, rfl, rfl, rfl⟩
  · rintro ⟨i, hi⟩
    fin_cases i
    · cases hi
    · cases hi

/-- The put has taken effect, and the call of `size` has not. -/
theorem queues_linearizable_putAndSize :
    ∃ log items, Legal (BoundedBlockingQueue.Spec 1) [] log items ∧
      Linearizes log [Mark.invoke (1 : Fin 2) (BoundedBlockingQueue.Op.size (T := ℕ)),
        .invoke 0 (.put 5), .respond 0 (.put 5) .done] ∧ [5] = items := by
  obtain ⟨f, hr, hown, hitems, hhist⟩ := reaches_putAndSize
  obtain ⟨-, -, log, items, hlegal, hlin, hfree⟩ :=
    (queues_linearizable putAndSize).2 1 List.head? (fun calls (_ : Reply ℕ) => calls.tail) f hr
  rw [hhist] at hlin
  exact ⟨log, items, hlegal, hlin, hitems ▸ hfree hown⟩

end Programs

/-! ### The critical sections of `put` and `take` -/

def Call.op : Call T → BoundedBlockingQueue.Op T
  | .put x => .put x
  | .take => .take

/-- The value that `take` returns. -/
def Reply.value? : Reply T → Option T
  | value x => some x
  | _ => none

namespace BoundedBlockingQueue

/-- The lines of `put` and `take`. -/
def lines (m : Call T) : Procedure (CircularBuffer T K) Cond (Reply T) (Option T) :=
  (procedure K m.op).map Reply.value?

/-- The threads of `client` share a `BoundedBlockingQueue<T>(K)`, line by line. -/
def clientProgram (K : ℕ) (client : Client T L) :
    Program (CircularBuffer T K) Cond (Call T) (Reply T) (Option T) L :=
  ⟨lines, client.call, client.resume⟩

/-- **The critical sections of the queue are its lines.** -/
theorem method_eq (m : Call T) : (lines m : Procedure (CircularBuffer T K) _ _ _).method =
    method m := by
  cases m with
  | put x =>
    have hbody : ∀ q : CircularBuffer T K,
        (lines (.put x)).method.body q = (method (.put x)).body q := by
      intro q
      cases hfull : q.full <;>
        simp [lines, Call.op, procedure, Procedure.map, Procedure.method, exec_cons, assert, method,
          put, Reply.value?, hfull]
    show Method.mk _ (fun q => (lines (.put x)).method.body q) _ = _
    rw [funext hbody]
    rfl
  | take =>
    have hbody : ∀ q : CircularBuffer T K,
        (lines .take).method.body q = (method .take).body q := by
      intro q
      cases hempty : q.empty with
      | true =>
        simp [lines, Call.op, procedure, Procedure.map, Procedure.method, exec_cons, assert, method,
          take, hempty]
      | false =>
        cases hfront : q.front? <;>
          simp [lines, Call.op, procedure, Procedure.map, Procedure.method, exec_cons, assert,
            method, take, Reply.value?, hempty, hfront]
    show Method.mk _ (fun q => (lines .take).method.body q) _ = _
    rw [funext hbody]
    rfl

theorem clientProgram_monitor (K : ℕ) (client : Client T L) :
    (clientProgram K client).monitor = system K client := by
  have hmethod : (fun m : Call T => (lines m : Procedure (CircularBuffer T K) _ _ _).method) =
      method := funext method_eq
  show System.mk (fun m => (lines m).method) client.call client.resume = _
  rw [hmethod]
  rfl

/-- No body has more than three statements. -/
theorem length_lines_le (m : Call T) :
    (lines m : Procedure (CircularBuffer T K) _ _ _).body.length ≤ 3 := by
  cases m with
  | put x => exact Nat.le_succ 2
  | take => exact le_rfl

end BoundedBlockingQueue

/-! ### Threads that can never run again -/

/-- What a thread that sleeps in `take` waits for. -/
def BlockingQueue.avail : Cond → List T → ℕ
  | .notEmpty, queue => queue.length
  | .notFull, _ => 0

theorem observer_supplies (e : σ → Reply T) (avail : Cond → σ → ℕ) :
    (observer e).method.Supplies avail :=
  Method.supplies_of_reads rfl rfl fun _ _ _ h => (congrArg Prod.fst (Option.some.inj h)).symm

theorem BlockingQueue.program_supply (call : L → Option (Op T)) (resume : L → Reply T → L) :
    (program call resume).monitor.Supply avail := by
  intro m
  cases m with
  | put x =>
    refine ⟨fun queue k h => ?_, fun queue queue' r _ hbody k => ?_⟩
    · cases h
    · obtain ⟨rfl, -⟩ := Prod.mk.inj (Option.some.inj hbody)
      cases k with
      | notEmpty =>
        show (queue ++ [x]).length + 0 ≤ queue.length + 1
        simp
      | notFull => exact Nat.zero_le _
  | take =>
    refine ⟨fun queue k h => ?_, fun queue queue' r h hbody k => ?_⟩
    · cases queue with
      | nil => cases k <;> rfl
      | cons front rest => cases h
    · cases queue with
      | nil => cases h
      | cons front rest =>
        obtain ⟨rfl, -⟩ := Prod.mk.inj (Option.some.inj hbody)
        cases k <;> exact le_rfl
  | size => exact observer_supplies _ _

theorem BoundedBlockingQueue.program_supply (K : ℕ) (call : L → Option (Op T))
    (resume : L → Reply T → L) :
    (program K call resume).monitor.Supply CircularBuffer.avail := by
  intro m
  cases m with
  | put x => exact Procedure.supplies_of_map (f := Reply.value?) (method_eq (.put x) ▸ supplies _)
  | take => exact Procedure.supplies_of_map (f := Reply.value?) (method_eq .take ▸ supplies _)
  | empty => exact observer_supplies _ _
  | full => exact observer_supplies _ _
  | size => exact observer_supplies _ _
  | capacity => exact observer_supplies _ _

/-- **A thread of a queue waits for ever only if it must**: when no thread can run, the mutex is
free, and every thread that has not finished is asleep in `take` on an empty queue, or in `put` on
a full one. -/
theorem queues_stuck [DecidableEq ι] [Fintype ι] (loc : ι → L) :
    (∀ (call : L → Option (BlockingQueue.Op T)) (resume : L → Reply T → L) f,
      (BlockingQueue.program call resume).Reaches (Locking.start [] loc) f →
      (BlockingQueue.program call resume).Stuck f →
        f.owner = none ∧ ∀ i, (BlockingQueue.program call resume).Finished f i ∨
          (call (f.loc i) = some .take ∧ f.phase i = .sleeping .notEmpty ∧ f.shared = [])) ∧
    ∀ K (call : L → Option (BoundedBlockingQueue.Op T)) (resume : L → Reply T → L) f,
      (BoundedBlockingQueue.program K call resume).Reaches (Locking.start .new loc) f →
      (BoundedBlockingQueue.program K call resume).Stuck f →
        f.owner = none ∧ ∀ i, (BoundedBlockingQueue.program K call resume).Finished f i ∨
          (call (f.loc i) = some .take ∧ f.phase i = .sleeping .notEmpty ∧ f.shared.items = []) ∨
          ∃ x, call (f.loc i) = some (.put x) ∧ f.phase i = .sleeping .notFull ∧
            f.shared.items.length = K := by
  constructor
  · intro call resume f hr hst
    have ho := Program.reaches_orderly hr
    have habort : f.aborted = false :=
      Program.aborted_eq_false id (fun _ _ h => BlockingQueue.spec h) hr
    refine ⟨hst.owner_eq_none ho habort, fun i => ?_⟩
    refine (hst.avail_eq_zero (BlockingQueue.program_supply call resume) hr habort i).imp_right ?_
    rintro ⟨m, k, hm, hp, hwait, havail⟩
    cases m with
    | put x => cases hwait
    | take =>
      cases hwait
      exact ⟨hm, hp, List.length_eq_zero_iff.1 havail⟩
    | size => cases hwait
  · intro K call resume f hr hst
    have ho := Program.reaches_orderly hr
    have habort : f.aborted = false :=
      Program.aborted_eq_false CircularBuffer.items
        (fun _ _ h => BoundedBlockingQueue.spec h) hr
    refine ⟨hst.owner_eq_none ho habort, fun i => ?_⟩
    refine (hst.avail_eq_zero (BoundedBlockingQueue.program_supply K call resume) hr habort
      i).imp_right ?_
    rintro ⟨m, k, hm, hp, hwait, havail⟩
    cases m with
    | put x =>
      cases hwait
      -- `put` waits for a slot, and none is free.
      have hle := f.shared.length_le
      have hzero : K - f.shared.items.length = 0 := havail
      exact Or.inr ⟨x, hm, hp, by omega⟩
    | take =>
      cases hwait
      exact Or.inl ⟨hm, hp, List.length_eq_zero_iff.1 havail⟩
    | empty => cases hwait
    | full => cases hwait
    | size => cases hwait
    | capacity => cases hwait

/-- A taker alone sleeps on the empty queue. -/
theorem queues_stuck_taker :
    ∃ f, (BoundedBlockingQueue.program 1 List.head? fun calls (_ : Reply ℕ) => calls.tail).Stuck f ∧
      f.owner = none ∧ f.phase () = .sleeping .notEmpty ∧ f.shared.items = [] := by
  set P := BoundedBlockingQueue.program 1 List.head? fun calls (_ : Reply ℕ) => calls.tail with hP
  have h0 : P.Reaches (Locking.start .new fun _ : Unit => [.take])
    (Locking.start .new fun _ : Unit => [.take]) := .refl
  have h1 := h0.tail ⟨.run (), .invoke rfl rfl rfl⟩
  have h2 := h1.tail ⟨.run (), .lock rfl rfl rfl⟩
  have h3 := h2.tail ⟨.run (), .block rfl rfl rfl rfl⟩
  obtain ⟨f, hr, hsleep⟩ : ∃ f, P.Reaches (Locking.start .new fun _ : Unit => [.take]) f ∧
      f.phase () = .sleeping .notEmpty := ⟨_, h3.tail ⟨.run (), .wait rfl rfl⟩, rfl⟩
  have hst : P.Stuck f := Program.stuck_of_sleeps fun _ => Or.inr ⟨.notEmpty, hsleep⟩
  obtain ⟨hown, hi⟩ := (queues_stuck fun _ : Unit => [.take]).2 1 List.head?
    (fun calls (_ : Reply ℕ) => calls.tail) f hr hst
  rcases hi () with ⟨hp, -⟩ | ⟨-, hp, hitems⟩ | ⟨x, -, hp, -⟩
  · cases hsleep.symm.trans hp
  · exact ⟨f, hst, hown, hp, hitems⟩
  · cases hsleep.symm.trans hp

end Base
end MongoUtils
