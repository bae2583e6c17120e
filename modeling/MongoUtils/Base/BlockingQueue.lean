import MongoUtils.Library.Wakeup

/-!
# `base/blocking_queue.h`: `BlockingQueue` and `BoundedBlockingQueue`

The two queues as monitors. `mutex_` is the mutex of the monitor (`base/mutex.h` wraps the
pthread calls and adds nothing to them), and `put` and `take` are its methods.

* `CircularBuffer`: `boost::circular_buffer`, whose `push_back` overwrites the oldest element of a
  full buffer;
* `Fifo`: what a queue is for. A method of either queue that does not wait has the effect of the
  abstract queue (`BlockingQueue.fifo`, `BoundedBlockingQueue.fifo`);
* `queues_exact`: in every reachable state the values taken, followed by the contents of the
  queue, are the values put;
* `BoundedBlockingQueue.supply`: a sleeping taker waits for an element and a sleeping putter for a
  free slot; `noLostWakeup` and what follows from it.

The threads are arbitrary: `Client` gives the call that a thread makes next, and its state after
the call has returned.
-/

namespace MongoUtils
namespace Base

open Monitor

/-- A call of `put` or `take`. -/
inductive Call (T : Type*)
  | put (x : T)
  | take
  deriving DecidableEq

/-- `notEmpty_` and `notFull_`. -/
inductive Cond
  | notEmpty
  | notFull
  deriving DecidableEq

/-- What the threads that share a queue do. -/
structure Client (T L : Type*) where
  call : L → Option (Call T)
  resume : L → Option T → L

/-- A thread that makes a sequence of calls. -/
def Client.sequence (T : Type*) : Client T (List (Call T)) := ⟨List.head?, fun calls _ => calls.tail⟩

variable {T L ι : Type*} {K : ℕ}

/-! ### `boost::circular_buffer` -/

/-- `boost::circular_buffer<T>` of capacity `K`. `overwritten` keeps the elements that `push_back`
has overwritten. -/
structure CircularBuffer (T : Type*) (K : ℕ) where
  items : List T
  overwritten : List T
  length_le : items.length ≤ K

namespace CircularBuffer

/-- `queue_(maxSize)`. -/
def new : CircularBuffer T K := ⟨[], [], Nat.zero_le K⟩

def full (q : CircularBuffer T K) : Bool := q.items.length == K

def empty (q : CircularBuffer T K) : Bool := q.items.isEmpty

/-- `push_back`. A buffer of capacity `0` is full and has no element to overwrite. -/
def pushBack (q : CircularBuffer T K) (x : T) : CircularBuffer T K :=
  if h : q.items.length < K then ⟨q.items ++ [x], q.overwritten, by simpa using h⟩
  else
    match hq : q.items with
    | [] => q
    | oldest :: rest => ⟨rest ++ [x], q.overwritten ++ [oldest], by
        have := q.length_le
        simp only [hq, List.length_cons, List.length_append, List.length_nil] at this ⊢
        omega⟩

def front? (q : CircularBuffer T K) : Option T := q.items.head?

def popFront (q : CircularBuffer T K) : CircularBuffer T K :=
  ⟨q.items.tail, q.overwritten, by
    have := q.length_le
    rw [List.length_tail]
    omega⟩

theorem full_eq_false {q : CircularBuffer T K} : q.full = false ↔ q.items.length < K := by
  have := q.length_le
  simp only [full, beq_eq_false_iff_ne, ne_eq]
  omega

theorem pushBack_of_lt {q : CircularBuffer T K} (h : q.items.length < K) (x : T) :
    q.pushBack x = ⟨q.items ++ [x], q.overwritten, by simpa using h⟩ := by
  rw [pushBack, dif_pos h]

end CircularBuffer

/-! ### The methods -/

/-- `BlockingQueue<T>::put`. -/
def BlockingQueue.put (x : T) : Method (List T) Cond (Option T) where
  wait := none
  body queue := some (queue ++ [x], none)
  notify := some .notEmpty

/-- `BlockingQueue<T>::take`. -/
def BlockingQueue.take : Method (List T) Cond (Option T) where
  wait := some (.notEmpty, List.isEmpty)
  -- `assert(!queue_.empty())`, then `front` and `pop_front`
  body queue := queue.head?.map fun front => (queue.tail, some front)
  notify := none

def BlockingQueue.method : Call T → Method (List T) Cond (Option T)
  | .put x => put x
  | .take => take

/-- `BoundedBlockingQueue<T>::put`. -/
def BoundedBlockingQueue.put (x : T) : Method (CircularBuffer T K) Cond (Option T) where
  wait := some (.notFull, CircularBuffer.full)
  body queue := if queue.full then none else some (queue.pushBack x, none)
  notify := some .notEmpty

/-- `BoundedBlockingQueue<T>::take`. -/
def BoundedBlockingQueue.take : Method (CircularBuffer T K) Cond (Option T) where
  wait := some (.notEmpty, CircularBuffer.empty)
  body queue :=
    if queue.empty then none else queue.front?.map fun front => (queue.popFront, some front)
  notify := some .notFull

def BoundedBlockingQueue.method : Call T → Method (CircularBuffer T K) Cond (Option T)
  | .put x => put x
  | .take => take

/-- The threads of `client` share a `BlockingQueue<T>`. -/
def BlockingQueue.system (client : Client T L) : System (List T) Cond (Call T) (Option T) L :=
  ⟨method, client.call, client.resume⟩

/-- The threads of `client` share a `BoundedBlockingQueue<T>(K)`. -/
def BoundedBlockingQueue.system (K : ℕ) (client : Client T L) :
    System (CircularBuffer T K) Cond (Call T) (Option T) L :=
  ⟨method, client.call, client.resume⟩

/-! ### The abstract queue -/

/-- The operations of a queue: `put` appends, and `take` returns the first element. -/
inductive Fifo : Call T → List T → Option T → List T → Prop
  | put (x : T) (items : List T) : Fifo (.put x) items none (items ++ [x])
  | take (front : T) (rest : List T) : Fifo .take (front :: rest) (some front) rest

/-- The value of a completed `put`. -/
def putValue (e : Event ι (Call T) (Option T)) : Option T :=
  match e.call with
  | .put x => some x
  | .take => none

/-- The value that a completed `take` returned. -/
def takenValue (e : Event ι (Call T) (Option T)) : Option T :=
  match e.call with
  | .put _ => none
  | .take => e.result

/-- The values of the completed puts, in order of completion. -/
def puts (log : List (Event ι (Call T) (Option T))) : List T := log.filterMap putValue

/-- The values returned by the completed takes, in order of completion. -/
def takes (log : List (Event ι (Call T) (Option T))) : List T := log.filterMap takenValue

section Logs

variable (log : List (Event ι (Call T) (Option T))) (i : ι)

@[simp] theorem puts_append_put (x : T) (r : Option T) :
    puts (log ++ [⟨i, .put x, r⟩]) = puts log ++ [x] := by
  simp [puts, putValue]

@[simp] theorem puts_append_take (r : Option T) :
    puts (log ++ [⟨i, .take, r⟩]) = puts log := by
  simp [puts, putValue]

@[simp] theorem takes_append_put (x : T) (r : Option T) :
    takes (log ++ [⟨i, .put x, r⟩]) = takes log := by
  simp [takes, takenValue]

@[simp] theorem takes_append_take (x : T) :
    takes (log ++ [⟨i, .take, some x⟩]) = takes log ++ [x] := by
  simp [takes, takenValue]

end Logs

/-- An operation of the abstract queue keeps the values taken and queued equal to those put. -/
theorem Fifo.conserves {m : Call T} {items items' : List T} {r : Option T} (h : Fifo m items r items')
    {log : List (Event ι (Call T) (Option T))} (hlog : takes log ++ items = puts log) (i : ι) :
    takes (log ++ [⟨i, m, r⟩]) ++ items' = puts (log ++ [⟨i, m, r⟩]) := by
  cases h with
  | put x items =>
    rw [takes_append_put, puts_append_put, ← hlog, List.append_assoc]
  | take front rest =>
    rw [takes_append_take, puts_append_take, ← hlog, List.append_assoc, List.singleton_append]

theorem Fifo.length_put {x : T} {items items' : List T} {r : Option T}
    (h : Fifo (.put x) items r items') : items'.length = items.length + 1 := by
  cases h
  simp

theorem Fifo.length_take {items items' : List T} {r : Option T}
    (h : Fifo .take items r items') : items.length = items'.length + 1 := by
  cases h
  rfl

theorem Fifo.result_take {items items' : List T} {r : Option T}
    (h : Fifo .take items r items') : ∃ x, r = some x := by
  cases h
  exact ⟨_, rfl⟩

/-- **A method of `BlockingQueue` that does not wait is an operation of the queue.** -/
theorem BlockingQueue.fifo {m : Call T} {queue : List T}
    (h : (method m).blockedOn queue = none) :
    ∃ queue' r, (method m).body queue = some (queue', r) ∧ Fifo m queue r queue' := by
  cases m with
  | put x => exact ⟨_, _, rfl, .put x queue⟩
  | take =>
    cases queue with
    | nil => cases h
    | cons front rest => exact ⟨_, _, rfl, .take front rest⟩

/-- **A method of `BoundedBlockingQueue` that does not wait is an operation of the queue**, and
overwrites nothing. -/
theorem BoundedBlockingQueue.fifo {m : Call T} {q : CircularBuffer T K}
    (h : (method m).blockedOn q = none) :
    ∃ q' r, (method m).body q = some (q', r) ∧ Fifo m q.items r q'.items ∧
      q'.overwritten = q.overwritten := by
  cases m with
  | put x =>
    have hfull : q.full = false := by
      simpa [method, put, Method.blockedOn] using h
    have hlt := CircularBuffer.full_eq_false.1 hfull
    refine ⟨q.pushBack x, none, ?_, ?_, ?_⟩
    · simp [method, put, hfull]
    · rw [CircularBuffer.pushBack_of_lt hlt]
      exact .put x q.items
    · rw [CircularBuffer.pushBack_of_lt hlt]
  | take =>
    have hempty : q.empty = false := by
      simpa [method, take, Method.blockedOn] using h
    obtain ⟨items, overwritten, hle⟩ := q
    cases items with
    | nil => cases hempty
    | cons front rest => exact ⟨_, _, rfl, .take front rest, rfl⟩

theorem BlockingQueue.fifo_of_body {m : Call T} {queue queue' : List T} {r : Option T}
    (h : (method m).blockedOn queue = none) (hbody : (method m).body queue = some (queue', r)) :
    Fifo m queue r queue' := by
  obtain ⟨_, _, hbody', hfifo⟩ := fifo h
  obtain ⟨rfl, rfl⟩ := Prod.mk.inj (Option.some.inj (hbody.symm.trans hbody'))
  exact hfifo

theorem BoundedBlockingQueue.fifo_of_body {m : Call T} {q q' : CircularBuffer T K} {r : Option T}
    (h : (method m).blockedOn q = none) (hbody : (method m).body q = some (q', r)) :
    Fifo m q.items r q'.items ∧ q'.overwritten = q.overwritten := by
  obtain ⟨_, _, hbody', hfifo⟩ := fifo h
  obtain ⟨rfl, rfl⟩ := Prod.mk.inj (Option.some.inj (hbody.symm.trans hbody'))
  exact hfifo

/-! ### Nothing is lost, duplicated or reordered -/

theorem BlockingQueue.safe (client : Client T L) :
    (system client).Safe fun queue (log : List (Event ι (Call T) (Option T))) =>
      takes log ++ queue = puts log where
  runs queue _ m _ h := by
    obtain ⟨queue', r, hbody, -⟩ := fifo h
    rw [show (system client).method = method from rfl, hbody]
    exact Option.some_ne_none _
  step queue log i m queue' r hlog h hbody := (fifo_of_body h hbody).conserves hlog i

theorem BoundedBlockingQueue.safe (client : Client T L) :
    (system K client).Safe fun q (log : List (Event ι (Call T) (Option T))) =>
      takes log ++ q.items = puts log ∧ q.overwritten = [] where
  runs q _ m _ h := by
    obtain ⟨q', r, hbody, -⟩ := fifo h
    rw [show (system K client).method = method from rfl, hbody]
    exact Option.some_ne_none _
  step q log i m q' r hlog h hbody := by
    obtain ⟨hfifo, hover⟩ := fifo_of_body h hbody
    exact ⟨hfifo.conserves hlog.1 i, hover.trans hlog.2⟩

/-- Two takers and a putter. -/
def twoTakers : Fin 3 → List (Call ℕ) := ![[.take], [.take], [.put 5]]

/-- Both takers sleep, and `put` wakes the first one. -/
theorem reaches_oneWoken :
    ∃ c, (BoundedBlockingQueue.system 1 (Client.sequence ℕ)).Reaches (start .new twoTakers) c ∧
      c.shared.items = [5] ∧ c.log = [⟨2, .put 5, none⟩] ∧
      c.status = ![.woken .notEmpty, .asleep .notEmpty, .ready] := by
  set sys := BoundedBlockingQueue.system 1 (Client.sequence ℕ) with hsys
  have h0 : sys.Reaches (start .new twoTakers) (start .new twoTakers) := .refl
  have h1 := h0.tail ⟨.run 0, .wait rfl rfl rfl rfl⟩
  have h2 := h1.tail ⟨.run 1, .wait rfl rfl rfl rfl⟩
  refine ⟨_, h2.tail ⟨.run 2, .finish rfl rfl rfl rfl rfl
    (show Signalled Cond.notEmpty _ _ from ⟨fun i => ?_, fun _ => ⟨0, rfl, rfl⟩⟩)⟩, rfl, rfl, rfl⟩
  fin_cases i
  · exact Or.inr ⟨rfl, rfl⟩
  · exact Or.inl rfl
  · exact Or.inl rfl

/-- **The queues lose, duplicate and reorder nothing**: in every reachable configuration the values
taken, followed by the contents of the queue, are the values put; no assertion has failed, and the
bounded queue holds at most `K` elements and has overwritten none. -/
theorem queues_exact [DecidableEq ι] (client : Client T L) (loc : ι → L) :
    (∀ c, (BlockingQueue.system client).Reaches (start [] loc) c →
      takes c.log ++ c.shared = puts c.log ∧ c.aborted = false) ∧
    ∀ K c, (BoundedBlockingQueue.system K client).Reaches (start .new loc) c →
      takes c.log ++ c.shared.items = puts c.log ∧ c.shared.items.length ≤ K ∧
        c.aborted = false ∧ c.shared.overwritten = [] := by
  constructor
  · intro c hr
    exact (BlockingQueue.safe client).reaches rfl hr
  · intro K c hr
    obtain ⟨⟨hlog, hover⟩, habort⟩ := (BoundedBlockingQueue.safe client).reaches ⟨rfl, rfl⟩ hr
    exact ⟨hlog, c.shared.length_le, habort, hover⟩

/-- The values are kept while one element is queued. -/
theorem queues_exact_oneWoken :
    ∃ c, (BoundedBlockingQueue.system 1 (Client.sequence ℕ)).Reaches (start .new twoTakers) c ∧
      c.shared.items = [5] ∧ takes c.log ++ c.shared.items = puts c.log ∧ c.aborted = false := by
  obtain ⟨c, hr, hitems, -, -⟩ := reaches_oneWoken
  have h := (queues_exact (Client.sequence ℕ) twoTakers).2 1 c hr
  exact ⟨c, hr, hitems, h.1, h.2.2.1⟩

/-! ### No wakeup is lost -/

/-- What a thread that sleeps on a condition waits for: elements, or free slots. -/
def CircularBuffer.avail : Cond → CircularBuffer T K → ℕ
  | .notEmpty, q => q.items.length
  | .notFull, q => K - q.items.length

theorem BoundedBlockingQueue.supplies (m : Call T) :
    (method m : Method (CircularBuffer T K) Cond (Option T)).Supplies CircularBuffer.avail where
  blocked q k h := by
    cases m with
    | put x =>
      cases hfull : q.full with
      | false => simp [method, put, Method.blockedOn, hfull] at h
      | true =>
        simp only [method, put, Method.blockedOn, hfull, if_true, Option.some.injEq] at h
        subst h
        simp only [CircularBuffer.full, beq_iff_eq] at hfull
        simp only [CircularBuffer.avail]
        omega
    | take =>
      cases hempty : q.empty with
      | false => simp [method, take, Method.blockedOn, hempty] at h
      | true =>
        simp only [method, take, Method.blockedOn, hempty, if_true, Option.some.injEq] at h
        subst h
        simpa [CircularBuffer.empty, CircularBuffer.avail] using hempty
  body q q' r h hbody k := by
    obtain ⟨hfifo, -⟩ := fifo_of_body h hbody
    have hle := q.length_le
    have hle' := q'.length_le
    -- `put` waits for a slot and signals an element, `take` the other way round.
    cases m with
    | put x =>
      have hlen := hfifo.length_put
      cases k with
      | notEmpty =>
        show q'.items.length + 0 ≤ q.items.length + 1
        omega
      | notFull =>
        show K - q'.items.length + 1 ≤ K - q.items.length + 0
        omega
    | take =>
      have hlen := hfifo.length_take
      cases k with
      | notEmpty =>
        show q'.items.length + 1 ≤ q.items.length + 0
        omega
      | notFull =>
        show K - q'.items.length + 0 ≤ K - q.items.length + 1
        omega

theorem BoundedBlockingQueue.supply (client : Client T L) :
    (system K client).Supply CircularBuffer.avail := supplies

section Wakeups

variable [DecidableEq ι] [Fintype ι] {client : Client T L} {loc : ι → L}
  {c : Config (CircularBuffer T K) Cond (Call T) (Option T) L ι}

namespace BoundedBlockingQueue

/-- A thread that sleeps in `take`. -/
def SleepingTaker (client : Client T L)
    (c : Config (CircularBuffer T K) Cond (Call T) (Option T) L ι) : Prop :=
  ∃ i k, c.status i = .asleep k ∧ client.call (c.loc i) = some .take

/-- A thread that sleeps in `put`. -/
def SleepingPutter (client : Client T L)
    (c : Config (CircularBuffer T K) Cond (Call T) (Option T) L ι) : Prop :=
  ∃ i k x, c.status i = .asleep k ∧ client.call (c.loc i) = some (.put x)

omit [Fintype ι] in
/-- A sleeping taker sleeps on `notEmpty_`. -/
theorem SleepingTaker.asleep (hr : (system K client).Reaches (start .new loc) c)
    (h : SleepingTaker client c) : ∃ i, c.status i = .asleep .notEmpty := by
  obtain ⟨i, k, hi, hcall⟩ := h
  obtain ⟨m, hm, hwait⟩ := System.reaches_waitsInCall hr i k (Or.inl hi)
  obtain rfl : Call.take = m := Option.some.inj (hcall.symm.trans hm)
  obtain rfl : Cond.notEmpty = k := Option.some.inj hwait
  exact ⟨i, hi⟩

omit [Fintype ι] in
/-- A sleeping putter sleeps on `notFull_`. -/
theorem SleepingPutter.asleep (hr : (system K client).Reaches (start .new loc) c)
    (h : SleepingPutter client c) : ∃ i, c.status i = .asleep .notFull := by
  obtain ⟨i, k, x, hi, hcall⟩ := h
  obtain ⟨m, hm, hwait⟩ := System.reaches_waitsInCall hr i k (Or.inl hi)
  obtain rfl : Call.put x = m := Option.some.inj (hcall.symm.trans hm)
  obtain rfl : Cond.notFull = k := Option.some.inj hwait
  exact ⟨i, hi⟩

/-- The queue is empty when every unfinished thread is asleep, one of them on `notEmpty_`. -/
theorem items_eq_nil (hr : (system K client).Reaches (start .new loc) c)
    (ha : (system K client).AllAsleep c) (h : ∃ i, c.status i = .asleep .notEmpty) :
    c.shared.items = [] := by
  obtain ⟨i, hi⟩ := h
  exact List.length_eq_zero_iff.1 ((supply client).avail_eq_zero hr ha hi)

/-- The queue is full when every unfinished thread is asleep, one of them on `notFull_`. -/
theorem length_eq (hr : (system K client).Reaches (start .new loc) c)
    (ha : (system K client).AllAsleep c) (h : ∃ i, c.status i = .asleep .notFull) :
    c.shared.items.length = K := by
  obtain ⟨i, hi⟩ := h
  have h0 : K - c.shared.items.length = 0 := (supply client).avail_eq_zero hr ha hi
  have := c.shared.length_le
  omega

/-- **No wakeup is lost**: while a thread sleeps on `notEmpty_`, the queue holds no more elements
than threads woken from it that have not yet tested again, and the same for the free slots and
`notFull_`. So there is no reachable configuration in which every unfinished thread is asleep
while a taker sleeps and the queue has an element, or a putter sleeps and it has a free slot, or
both a taker and a putter sleep. -/
theorem noLostWakeup (hK : 1 ≤ K) (hr : (system K client).Reaches (start .new loc) c) :
    ((∃ i, c.status i = .asleep .notEmpty) →
      c.shared.items.length ≤ wokenCount c.status .notEmpty) ∧
    ((∃ i, c.status i = .asleep .notFull) →
      K - c.shared.items.length ≤ wokenCount c.status .notFull) ∧
    ((system K client).AllAsleep c →
      ¬ (c.shared.items ≠ [] ∧ SleepingTaker client c) ∧
      ¬ (c.shared.items.length < K ∧ SleepingPutter client c) ∧
      ¬ (SleepingTaker client c ∧ SleepingPutter client c)) := by
  refine ⟨(supply client).reaches hr .notEmpty, (supply client).reaches hr .notFull,
    fun ha => ⟨?_, ?_, ?_⟩⟩
  · rintro ⟨hne, htaker⟩
    exact hne (items_eq_nil hr ha (htaker.asleep hr))
  · rintro ⟨hlt, hputter⟩
    have := length_eq hr ha (hputter.asleep hr)
    omega
  · rintro ⟨htaker, hputter⟩
    have hnil := items_eq_nil hr ha (htaker.asleep hr)
    have hfull := length_eq hr ha (hputter.asleep hr)
    rw [hnil, List.length_nil] at hfull
    omega

/-- A sleeper stays behind one element and one woken thread. -/
theorem noLostWakeup_oneWoken :
    ∃ c, (BoundedBlockingQueue.system 1 (Client.sequence ℕ)).Reaches (start .new twoTakers) c ∧
      c.shared.items = [5] ∧ (∃ i, c.status i = .asleep .notEmpty) ∧
      c.shared.items.length ≤ wokenCount c.status .notEmpty := by
  obtain ⟨c, hr, hitems, -, hst⟩ := reaches_oneWoken
  have hsleeper : ∃ i, c.status i = .asleep .notEmpty := ⟨1, by rw [hst]; rfl⟩
  exact ⟨c, hr, hitems, hsleeper, (BoundedBlockingQueue.noLostWakeup le_rfl hr).1 hsleeper⟩

end BoundedBlockingQueue

end Wakeups

end Base
end MongoUtils
