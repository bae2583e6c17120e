import MongoUtils.Base.BlockingQueue

/-!
# `tools/mongodump2.cpp`: the dump pipeline

One thread of `dump_mongod` for every shard puts the documents of its cursor into the queue `q`,
and the thread of `dump_writer` takes `total` of them and writes the valid ones. `int` is `Int32`,
so the counters of the writer wrap around where the code's do.

* `Locals`, `client`: the local variables of the threads and their loops;
* `dump`, `dumpStart`: the threads around a queue of capacity `K`;
* `Ledger`: what a thread has done so far is what its local variables say (`reaches_ledger`);
* `Balance`: the documents taken, queued and not yet put are those of the cursors, and who has
  finished (`reaches_balance`).
-/

namespace MongoUtils
namespace Tools

open Base Monitor

/-- `mongo::BSONObj`: the `objsize()` bytes at `objdata()`. -/
structure BSONObj where
  objdata : List UInt8
  deriving DecidableEq

/-- The local variables of a thread: what the cursor of `dump_mongod` has still to deliver, and the
counters of `dump_writer` with the contents of its output file. -/
inductive Locals
  | dumpMongod (cursor : List BSONObj)
  | dumpWriter (total counter invalidCounter : Int32) (out : List UInt8)

namespace Locals

/-- The tests of the two loops: `cursor->more()` and `counter < total`. -/
def call : Locals → Option (Call BSONObj)
  | dumpMongod cursor => cursor.head?.map .put
  | dumpWriter total counter _ _ => if counter < total then some .take else none

/-- The rest of the two loops, from the return of `q.put` and `q.take`. -/
def resume (isValid : BSONObj → Bool) : Locals → Option BSONObj → Locals
  | dumpMongod cursor, _ => dumpMongod cursor.tail
  | dumpWriter total counter invalidCounter out, some d =>
      if isValid d then dumpWriter total (counter + 1) invalidCounter (out ++ d.objdata)
      else dumpWriter total (counter + 1) (invalidCounter + 1) out
  | l, none => l  -- `take` returns a document

end Locals

/-- The threads of the program. `isValid` is `BSONObj::isValid` of the driver. -/
def client (isValid : BSONObj → Bool) : Client BSONObj Locals := ⟨Locals.call, Locals.resume isValid⟩

/-- The threads around the queue `q` of capacity `K`. -/
def dump (K : ℕ) (isValid : BSONObj → Bool) :
    System (CircularBuffer BSONObj K) Cond (Call BSONObj) (Option BSONObj) Locals :=
  BoundedBlockingQueue.system K (client isValid)

variable {S : Type*} {K : ℕ} {isValid : BSONObj → Bool} {total : Int32}
  {cursors : S → List BSONObj}

@[simp] theorem dump_call : (dump K isValid).call = Locals.call := rfl

@[simp] theorem dump_resume : (dump K isValid).resume = Locals.resume isValid := rfl

/-- A thread `some s` for every shard `s`, and the writer `none`. -/
def dumpLocals (total : Int32) (cursors : S → List BSONObj) : Option S → Locals
  | none => .dumpWriter total 0 0 []
  | some s => .dumpMongod (cursors s)

abbrev DumpConfig (K : ℕ) (S : Type*) : Type _ :=
  Config (CircularBuffer BSONObj K) Cond (Call BSONObj) (Option BSONObj) Locals (Option S)

/-- The state of the program when `main` has started the threads. -/
def dumpStart (K : ℕ) (total : Int32) (cursors : S → List BSONObj) : DumpConfig K S :=
  start .new (dumpLocals total cursors)

/-- The number of documents that the cursors deliver. -/
def documents [Fintype S] (cursors : S → List BSONObj) : ℕ := ∑ s, (cursors s).length

/-! ### What a thread has done -/

/-- The completed calls of a thread and its local variables. -/
def Ledger (isValid : BSONObj → Bool) (total : Int32) (cursors : S → List BSONObj) :
    Option S → List (Event (Option S) (Call BSONObj) (Option BSONObj)) → Locals → Prop
  | some s, log, l =>
      takes log = [] ∧ ∃ cursor, l = .dumpMongod cursor ∧ puts log ++ cursor = cursors s
  | none, log, l =>
      puts log = [] ∧ ∃ counter invalidCounter,
        l = .dumpWriter total counter invalidCounter
          (((takes log).filter isValid).flatMap BSONObj.objdata) ∧
        counter.toInt = (takes log).length ∧ counter.toInt ≤ max 0 total.toInt ∧
        counter.toInt = ((takes log).filter isValid).length + invalidCounter.toInt

/-- `++counter` below a bound does not overflow. -/
theorem toInt_add_one {n bound : Int32} (h : n.toInt < bound.toInt) :
    (n + 1).toInt = n.toInt + 1 := by
  have hlow := n.le_toInt
  have hhigh := bound.toInt_lt
  rw [Int32.toInt_add]
  exact Int.bmod_eq_of_le_mul_two (by simp at *; omega) (by simp at *; omega)

/-- The writer has a call left while its counter is below `total`. -/
theorem call_dumpWriter {counter invalidCounter : Int32} {out : List UInt8}
    {m : Call BSONObj} (h : (Locals.dumpWriter total counter invalidCounter out).call = some m) :
    m = .take ∧ counter.toInt < total.toInt := by
  simp only [Locals.call, Option.ite_none_right_eq_some, Option.some.injEq] at h
  exact ⟨h.2.symm, Int32.lt_iff_toInt_lt.1 h.1⟩

theorem ledger (isValid : BSONObj → Bool) (total : Int32) (cursors : S → List BSONObj) :
    (dump K isValid).Local (Ledger isValid total cursors) where
  step t log l m q q' r hJ hcall hb hbody := by
    obtain ⟨hfifo, -⟩ := BoundedBlockingQueue.fifo_of_body hb hbody
    cases t with
    | some s =>
      obtain ⟨htakes, cursor, rfl, hputs⟩ := hJ
      cases cursor with
      | nil => cases hcall
      | cons d cursor =>
        obtain rfl : Call.put d = m := Option.some.inj hcall
        refine ⟨?_, cursor, rfl, ?_⟩
        · rw [takes_append_put, htakes]
        · rw [puts_append_put, List.append_assoc, List.singleton_append, hputs]
    | none =>
      obtain ⟨hputs, counter, invalidCounter, rfl, hcounter, hle, hsum⟩ := hJ
      rw [dump_call] at hcall
      obtain ⟨rfl, hlt⟩ := call_dumpWriter hcall
      obtain ⟨d, rfl⟩ := hfifo.result_take
      have hsucc := toInt_add_one hlt
      refine ⟨by rw [puts_append_take, hputs], counter + 1, ?_⟩
      simp only [takes_append_take, List.filter_append, List.flatMap_append, List.length_append,
        List.length_singleton, hsucc]
      -- `counter` counts every document, `invalidCounter` the invalid ones.
      cases hd : isValid d with
      | true =>
        refine ⟨invalidCounter, ?_, by omega, by omega, ?_⟩
        · simp [Locals.resume, hd]
        · simp [hd]
          omega
      | false =>
        have hlt' : invalidCounter.toInt < total.toInt := by omega
        have hinvalid := toInt_add_one hlt'
        refine ⟨invalidCounter + 1, ?_, by omega, by omega, ?_⟩
        · simp [Locals.resume, hd]
        · simp [hd, hinvalid]
          omega

section Reached

variable [DecidableEq S] {c : DumpConfig K S}

theorem reaches_ledger (hr : (dump K isValid).Reaches (dumpStart K total cursors) c)
    (t : Option S) : Ledger isValid total cursors t (own t c.log) (c.loc t) := by
  refine (ledger isValid total cursors).reaches (fun t => ?_) hr t
  cases t with
  | some s => exact ⟨rfl, cursors s, rfl, rfl⟩
  | none => exact ⟨rfl, 0, 0, rfl, rfl, le_max_left _ _, rfl⟩

/-- Only the writer takes. -/
theorem takes_own_none (hr : (dump K isValid).Reaches (dumpStart K total cursors) c) :
    takes (own none c.log) = takes c.log := by
  refine filterMap_own fun t ht => ?_
  cases t with
  | some s => exact (reaches_ledger hr (some s)).1
  | none => exact absurd rfl ht

/-- What the writer has done, in terms of all that was taken from the queue. -/
theorem reaches_writer (hr : (dump K isValid).Reaches (dumpStart K total cursors) c) :
    ∃ counter invalidCounter,
      c.loc none = .dumpWriter total counter invalidCounter
        (((takes c.log).filter isValid).flatMap BSONObj.objdata) ∧
      counter.toInt = (takes c.log).length ∧ counter.toInt ≤ max 0 total.toInt ∧
      counter.toInt = ((takes c.log).filter isValid).length + invalidCounter.toInt := by
  rw [← takes_own_none hr]
  exact (reaches_ledger hr none).2

/-- Only the producers put. `p` selects documents. -/
theorem puts_filter_eq_sum [Fintype S] (p : BSONObj → Bool)
    (hr : (dump K isValid).Reaches (dumpStart K total cursors) c) :
    (((puts c.log).filter p : List BSONObj) : Multiset BSONObj) =
      ∑ s, (((puts (own (some s) c.log)).filter p : List BSONObj) : Multiset BSONObj) := by
  have hsum := sum_own (fun e => (putValue e).filter p) c.log
  simp only [← List.filter_filterMap] at hsum
  rw [Fintype.sum_option] at hsum
  have hnone : (own none c.log).filterMap putValue = [] := (reaches_ledger hr none).1
  rw [hnone, List.filter_nil, Multiset.coe_nil, zero_add] at hsum
  exact hsum.symm

theorem queue_exact (hr : (dump K isValid).Reaches (dumpStart K total cursors) c) :
    takes c.log ++ c.shared.items = puts c.log ∧ c.aborted = false := by
  obtain ⟨⟨hlog, -⟩, habort⟩ := (BoundedBlockingQueue.safe (client isValid)).reaches ⟨rfl, rfl⟩ hr
  exact ⟨hlog, habort⟩

/-- Every document of the cursors has been taken, is queued, or is among the `unread s` that shard
`s` has not put yet; and these numbers say which threads have finished. -/
structure Balance [Fintype S] (isValid : BSONObj → Bool) (total : Int32)
    (cursors : S → List BSONObj) (c : DumpConfig K S) (unread : S → ℕ) : Prop where
  sum : (takes c.log).length + c.shared.items.length + ∑ s, unread s = documents cursors
  takes_le : ((takes c.log).length : ℤ) ≤ max 0 total.toInt
  writer_finished : (dump K isValid).Finished c none ↔ total.toInt ≤ (takes c.log).length
  producer_finished : ∀ s, (dump K isValid).Finished c (some s) ↔ unread s = 0

theorem reaches_balance [Fintype S]
    (hr : (dump K isValid).Reaches (dumpStart K total cursors) c) :
    ∃ unread, Balance isValid total cursors c unread := by
  choose cursor hloc hputs using fun s => (reaches_ledger hr (some s)).2
  obtain ⟨counter, invalidCounter, hwriter, hcounter, hle, -⟩ := reaches_writer hr
  refine ⟨fun s => (cursor s).length, ?_, hcounter ▸ hle, ?_, fun s => ?_⟩
  · have hlen := congrArg List.length (queue_exact hr).1
    have hcard := congrArg Multiset.card (puts_filter_eq_sum (fun _ => true) hr)
    simp only [List.filter_true, Multiset.card_sum, Multiset.coe_card] at hcard
    rw [List.length_append, hcard] at hlen
    rw [hlen, ← Finset.sum_add_distrib]
    refine Finset.sum_congr rfl fun s _ => ?_
    rw [← List.length_append, hputs]
  · rw [System.Finished, hwriter, dump_call, ← hcounter]
    simp [Locals.call, Int32.lt_iff_toInt_lt]
  · rw [System.Finished, hloc, dump_call, List.length_eq_zero_iff]
    cases cursor s <;> simp [Locals.call]

end Reached

end Tools
end MongoUtils
