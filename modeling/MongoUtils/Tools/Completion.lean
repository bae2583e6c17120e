import MongoUtils.Tools.MongoDump

/-!
# When a dump ends, and what it has written

`main` reads `count` once and starts the writer with it; the cursors deliver what they deliver.
Write `T` for the total of the writer, `D` for the documents of the cursors and `K` for the capacity
of the queue.

* `dump_outcome`: for `T ≤ D ≤ T + K` every thread finishes unless it can still run, for `D < T`
  the writer never finishes, and for `D > T + K` some producer never does. In every state the file
  holds the valid documents among those taken;
* `completed_iff`: all the documents are written whenever the threads finish, exactly if the
  cursors deliver no more documents than were counted, or so many that the threads never finish.
-/

namespace MongoUtils
namespace Tools

open Base Monitor

variable {S : Type*} {K : ℕ} {isValid : BSONObj → Bool} {total : Int32}
  {cursors : S → List BSONObj}

/-! ### Every run comes to an end -/

/-- The calls that a thread makes before it finishes. -/
def Locals.remaining : Locals → ℕ
  | dumpMongod cursor => cursor.length
  | dumpWriter total counter _ _ => (total.toInt - counter.toInt).toNat

theorem dump_finite (K : ℕ) (isValid : BSONObj → Bool) :
    (dump K isValid).Finite Locals.remaining where
  resume l m q q' r hcall hb hbody := by
    obtain ⟨hfifo, -⟩ := BoundedBlockingQueue.fifo_of_body hb hbody
    rw [dump_call] at hcall
    rw [dump_resume]
    cases l with
    | dumpMongod cursor =>
      cases cursor with
      | nil => cases hcall
      | cons d cursor => exact Nat.lt_succ_self _
    | dumpWriter total counter invalidCounter out =>
      obtain ⟨rfl, hlt⟩ := call_dumpWriter hcall
      obtain ⟨d, rfl⟩ := hfifo.result_take
      have hsucc := toInt_add_one hlt
      cases hd : isValid d with
      | true =>
        simp only [Locals.resume, hd, if_true, Locals.remaining, hsucc]
        omega
      | false =>
        simp only [Locals.resume, hd, Bool.false_eq_true, if_false, Locals.remaining, hsucc]
        omega

section Reached

variable [DecidableEq S] {c : DumpConfig K S}

/-- An unfinished writer sleeps on an empty queue when every unfinished thread is asleep. -/
theorem items_eq_nil_of_writer [Fintype S]
    (hr : (dump K isValid).Reaches (dumpStart K total cursors) c)
    (ha : (dump K isValid).AllAsleep c) (h : ¬ (dump K isValid).Finished c none) :
    c.shared.items = [] := by
  obtain ⟨counter, invalidCounter, hloc, -⟩ := reaches_writer hr
  obtain ⟨k, hk⟩ := (ha none).resolve_left h
  obtain ⟨m, hm⟩ := Option.ne_none_iff_exists'.1 h
  rw [hloc, dump_call] at hm
  obtain ⟨rfl, -⟩ := call_dumpWriter hm
  have htaker : BoundedBlockingQueue.SleepingTaker (client isValid) c :=
    ⟨none, k, hk, by rw [hloc]; exact hm⟩
  exact BoundedBlockingQueue.items_eq_nil hr ha (htaker.asleep hr)

/-- An unfinished producer sleeps on a full queue when every unfinished thread is asleep. -/
theorem length_eq_of_producer [Fintype S]
    (hr : (dump K isValid).Reaches (dumpStart K total cursors) c)
    (ha : (dump K isValid).AllAsleep c) {s : S}
    (h : ¬ (dump K isValid).Finished c (some s)) : c.shared.items.length = K := by
  obtain ⟨-, cursor, hloc, -⟩ := reaches_ledger hr (some s)
  obtain ⟨k, hk⟩ := (ha (some s)).resolve_left h
  cases cursor with
  | nil => exact absurd (by rw [System.Finished, hloc]; rfl) h
  | cons d cursor =>
    have hputter : BoundedBlockingQueue.SleepingPutter (client isValid) c :=
      ⟨some s, k, d, hk, by rw [hloc]; rfl⟩
    exact BoundedBlockingQueue.length_eq hr ha (hputter.asleep hr)

/-- **The writer has finished when no thread can run**, if it takes no more documents than there
are. -/
theorem writer_finished_of_stuck [Fintype S] (hK : 1 ≤ K)
    (hr : (dump K isValid).Reaches (dumpStart K total cursors) c)
    (hle : total.toInt ≤ documents cursors) (hstuck : (dump K isValid).Stuck c) :
    (dump K isValid).Finished c none := by
  obtain ⟨unread, hbal⟩ := reaches_balance hr
  have ha := (System.stuck_iff (queue_exact hr).2).1 hstuck
  have hsum := hbal.sum
  by_contra hnone
  -- The writer sleeps on an empty queue, so no producer sleeps on a full one: all documents
  -- have been put and taken, and the writer wants more.
  have hnil := items_eq_nil_of_writer hr ha hnone
  have hunread : ∀ s, unread s = 0 := by
    intro s
    rw [← hbal.producer_finished s]
    by_contra hs
    have := length_eq_of_producer hr ha hs
    rw [hnil, List.length_nil] at this
    omega
  rw [hnil, Finset.sum_eq_zero fun s _ => hunread s, List.length_nil] at hsum
  exact hnone (hbal.writer_finished.2 (by omega))

/-- **Threads that cannot run have finished** when the writer takes no more documents than there
are, and those that it leaves fit into the queue. -/
theorem finished_of_stuck [Fintype S] (hK : 1 ≤ K)
    (hr : (dump K isValid).Reaches (dumpStart K total cursors) c)
    (hle : total.toInt ≤ documents cursors) (hge : documents cursors ≤ total.toInt + K)
    (hstuck : (dump K isValid).Stuck c) : ∀ t, (dump K isValid).Finished c t := by
  obtain ⟨unread, hbal⟩ := reaches_balance hr
  have ha := (System.stuck_iff (queue_exact hr).2).1 hstuck
  have hsum := hbal.sum
  have hwriter := writer_finished_of_stuck hK hr hle hstuck
  rintro (_ | s)
  · exact hwriter
  · by_contra hs
    -- A producer sleeps on a full queue and the writer is done: more than `total + K` documents.
    have hfull := length_eq_of_producer hr ha hs
    have hpos : 0 < ∑ s, unread s := by
      refine Finset.sum_pos' (fun s _ => Nat.zero_le _) ⟨s, Finset.mem_univ s, ?_⟩
      rw [hbal.producer_finished s] at hs
      omega
    have hdone := hbal.writer_finished.1 hwriter
    omega

/-- The writer never finishes when the cursors deliver fewer documents than it takes. -/
theorem writer_unfinished [Fintype S]
    (hr : (dump K isValid).Reaches (dumpStart K total cursors) c)
    (hlt : documents cursors < total.toInt) : ¬ (dump K isValid).Finished c none := by
  obtain ⟨unread, hbal⟩ := reaches_balance hr
  intro h
  have := hbal.sum
  have := hbal.writer_finished.1 h
  omega

/-- Some producer never finishes when the cursors deliver more documents than the writer takes and
the queue holds. -/
theorem producer_unfinished [Fintype S] (htotal : 0 ≤ total.toInt)
    (hr : (dump K isValid).Reaches (dumpStart K total cursors) c)
    (hlt : total.toInt + K < documents cursors) :
    ¬ ∀ s, (dump K isValid).Finished c (some s) := by
  obtain ⟨unread, hbal⟩ := reaches_balance hr
  intro h
  have hsum := hbal.sum
  have htakes := hbal.takes_le
  have hroom := c.shared.length_le
  rw [Finset.sum_eq_zero fun s _ => (hbal.producer_finished s).1 (h s)] at hsum
  omega

/-! ### The documents of a shard -/

/-- The documents put, with the thread that put each. -/
def putBy (log : List (Event (Option S) (Call BSONObj) (Option BSONObj))) :
    List (Option S × BSONObj) :=
  log.filterMap fun e => (putValue e).map (e.thread, ·)

/-- The documents of shard `s` among those taken: the queue is first in first out, so the documents
taken are the first ones put (`takes_eq_putBy`). -/
def takenFrom (s : S) (log : List (Event (Option S) (Call BSONObj) (Option BSONObj))) :
    List BSONObj :=
  ((putBy log).take (takes log).length).filterMap fun p => if p.1 = some s then some p.2 else none

omit [DecidableEq S] in
theorem putBy_map_snd (log : List (Event (Option S) (Call BSONObj) (Option BSONObj))) :
    (putBy log).map Prod.snd = puts log := by
  rw [putBy, List.map_filterMap]
  refine List.filterMap_congr fun e _ => ?_
  cases putValue e <;> rfl

theorem takes_eq_putBy (hr : (dump K isValid).Reaches (dumpStart K total cursors) c) :
    takes c.log = ((putBy c.log).take (takes c.log).length).map Prod.snd := by
  rw [List.map_take, putBy_map_snd, ← (queue_exact hr).1, List.take_left]

theorem filterMap_putBy (s : S) (log : List (Event (Option S) (Call BSONObj) (Option BSONObj))) :
    (putBy log).filterMap (fun p => if p.1 = some s then some p.2 else none) =
      puts (own (some s) log) := by
  rw [putBy, List.filterMap_filterMap, puts, own, List.filterMap_filter]
  refine List.filterMap_congr fun e _ => ?_
  by_cases he : e.thread = some s
  · cases putValue e <;> simp [he]
  · cases putValue e <;> simp [he]

/-- **The documents taken from a shard are a prefix of its cursor.** -/
theorem takenFrom_prefix (hr : (dump K isValid).Reaches (dumpStart K total cursors) c) (s : S) :
    takenFrom s c.log <+: cursors s := by
  obtain ⟨-, cursor, -, hputs⟩ := reaches_ledger hr (some s)
  have htaken : takenFrom s c.log <+: puts (own (some s) c.log) := by
    rw [← filterMap_putBy]
    exact (List.take_prefix _ _).filterMap _
  exact htaken.trans ⟨cursor, hputs⟩

/-- **Exactly when the pipeline can hang, and what it writes.** With `T ≤ D ≤ T + K` every
configuration without a step has all threads finished; with `D < T` the writer never finishes, and
with `D > T + K` some producer never does. In every configuration the output file holds the valid
documents among those taken, in the order they were taken, the documents taken from a shard are a
prefix of its cursor, and `counter` is the number of documents written plus `invalidCounter`. -/
theorem dump_outcome [Fintype S] (hK : 1 ≤ K) (htotal : 0 ≤ total.toInt)
    (hr : (dump K isValid).Reaches (dumpStart K total cursors) c) :
    (total.toInt ≤ documents cursors → documents cursors ≤ total.toInt + K →
      (dump K isValid).Stuck c → ∀ t, (dump K isValid).Finished c t) ∧
    (documents cursors < total.toInt → ¬ (dump K isValid).Finished c none) ∧
    (total.toInt + K < documents cursors → ¬ ∀ s, (dump K isValid).Finished c (some s)) ∧
    (∃ counter invalidCounter,
      c.loc none = .dumpWriter total counter invalidCounter
        (((takes c.log).filter isValid).flatMap BSONObj.objdata) ∧
      counter.toInt = ((takes c.log).filter isValid).length + invalidCounter.toInt) ∧
    takes c.log = ((putBy c.log).take (takes c.log).length).map Prod.snd ∧
    ∀ s, takenFrom s c.log <+: cursors s := by
  refine ⟨finished_of_stuck hK hr, writer_unfinished hr, producer_unfinished htotal hr, ?_,
    takes_eq_putBy hr, takenFrom_prefix hr⟩
  obtain ⟨counter, invalidCounter, hloc, -, -, hsum⟩ := reaches_writer hr
  exact ⟨counter, invalidCounter, hloc, hsum⟩

end Reached

/-- One shard with the empty document `{}`. -/
def oneDocument : Unit → List BSONObj := fun _ => [⟨[5, 0, 0, 0, 0]⟩]

/-- The dump of one document through a queue of one slot comes to an end, with all threads
finished and the document written. -/
theorem dump_outcome_oneDocument :
    ∃ c : DumpConfig 1 Unit,
      (dump 1 fun _ => true).Reaches (dumpStart 1 1 oneDocument) c ∧
      (∀ t, (dump 1 fun _ => true).Finished c t) ∧
      ∃ counter invalidCounter, c.loc none = .dumpWriter 1 counter invalidCounter
        (((takes c.log).filter fun _ => true).flatMap BSONObj.objdata) := by
  obtain ⟨c, hr, hstuck⟩ :=
    (dump_finite 1 fun _ => true).exists_stuck (dumpStart 1 1 oneDocument)
  obtain ⟨hfinished, -, -, ⟨counter, invalidCounter, hloc, -⟩, -⟩ :=
    dump_outcome le_rfl (by decide) hr
  exact ⟨c, hr, hfinished (by decide) (by decide) hstuck, counter, invalidCounter, hloc⟩

/-! ### Completed dumps -/

/-- The capacity of `q`. -/
def qCapacity : ℕ := 10000

/-- `int total_count = c.count(ns)`. -/
def totalCount (count : UInt64) : Int32 := Int32.ofNat count.toNat

/-- The state in which `main` has started the threads: `count` is what `c.count(ns)` returned
before the cursors were opened, and the cursors need not deliver so many documents. -/
def mainStart (count : UInt64) (cursors : S → List BSONObj) : DumpConfig qCapacity S :=
  dumpStart qCapacity (totalCount count) cursors

theorem toInt_totalCount {count : UInt64} (h : count.toNat < 2 ^ 31) :
    (totalCount count).toInt = count.toNat := by
  rw [totalCount, Int32.toInt_ofNat']
  exact Int.bmod_eq_of_le_mul_two (by omega) (by simp; omega)

/-- Nothing is left in the queue, and the documents written are the valid documents of the cursors,
each as often as the cursors deliver it. -/
structure Complete [Fintype S] (isValid : BSONObj → Bool) (cursors : S → List BSONObj)
    (c : DumpConfig K S) : Prop where
  queue_empty : c.shared.items = []
  output : ∃ total counter invalidCounter, c.loc none = .dumpWriter total counter invalidCounter
    (((takes c.log).filter isValid).flatMap BSONObj.objdata)
  written_once : (((takes c.log).filter isValid : List BSONObj) : Multiset BSONObj) =
    ∑ s, (((cursors s).filter isValid : List BSONObj) : Multiset BSONObj)

/-- Whenever `main` has joined all threads, the dump is complete. -/
def CompleteWhenFinished [Fintype S] [DecidableEq S] (isValid : BSONObj → Bool) (count : UInt64)
    (cursors : S → List BSONObj) : Prop :=
  ∀ c, (dump qCapacity isValid).Reaches (mainStart count cursors) c →
    (∀ t, (dump qCapacity isValid).Finished c t) → Complete isValid cursors c

section Completed

variable [Fintype S] [DecidableEq S] {c : DumpConfig K S}

/-- **A dump is complete** when the threads have finished and the writer has not left a document
behind. -/
theorem complete_of_le (hr : (dump K isValid).Reaches (dumpStart K total cursors) c)
    (hle : documents cursors ≤ total.toInt) (hf : ∀ t, (dump K isValid).Finished c t) :
    Complete isValid cursors c := by
  obtain ⟨unread, hbal⟩ := reaches_balance hr
  have hsum := hbal.sum
  have hdone := hbal.writer_finished.1 (hf none)
  have hnil : c.shared.items = [] := List.length_eq_zero_iff.1 (by omega)
  obtain ⟨counter, invalidCounter, hloc, -⟩ := reaches_writer hr
  refine ⟨hnil, ⟨total, counter, invalidCounter, hloc⟩, ?_⟩
  have hputs : ∀ s, puts (own (some s) c.log) = cursors s := by
    intro s
    obtain ⟨-, cursor, hs, hputs⟩ := reaches_ledger hr (some s)
    have hfs := hf (some s)
    rw [System.Finished, hs, dump_call] at hfs
    cases cursor with
    | nil => rwa [List.append_nil] at hputs
    | cons d cursor => cases hfs
  have htakes : takes c.log = puts c.log := by
    rw [← (queue_exact hr).1, hnil, List.append_nil]
  rw [htakes, puts_filter_eq_sum isValid hr]
  exact Finset.sum_congr rfl fun s _ => by rw [hputs s]

/-- With more documents than the writer takes, and not more than it takes and the queue holds, the
threads can finish and leave some in the queue. -/
theorem exists_finished_incomplete (isValid : BSONObj → Bool) (cursors : S → List BSONObj)
    (hK : 1 ≤ K) (htotal : 0 ≤ total.toInt)
    (hlt : total.toInt < documents cursors) (hle : documents cursors ≤ total.toInt + K) :
    ∃ c, (dump K isValid).Reaches (dumpStart K total cursors) c ∧
      (∀ t, (dump K isValid).Finished c t) ∧ ¬ Complete isValid cursors c := by
  obtain ⟨c, hr, hstuck⟩ :=
    (dump_finite K isValid).exists_stuck (dumpStart K total cursors)
  have hf := finished_of_stuck hK hr hlt.le hle hstuck
  refine ⟨c, hr, hf, fun h => ?_⟩
  obtain ⟨unread, hbal⟩ := reaches_balance hr
  have hsum := hbal.sum
  have htakes := hbal.takes_le
  rw [Finset.sum_eq_zero fun s _ => (hbal.producer_finished s).1 (hf (some s)),
    h.queue_empty, List.length_nil] at hsum
  omega

/-- **When a completed dump is complete**: exactly if the cursors deliver no more documents than
`main` has counted, or so many more that the threads never finish. -/
theorem completed_iff (isValid : BSONObj → Bool) (count : UInt64) (hcount : count.toNat < 2 ^ 31)
    (cursors : S → List BSONObj) :
    CompleteWhenFinished isValid count cursors ↔
      documents cursors ≤ count.toNat ∨ count.toNat + qCapacity < documents cursors := by
  have htotal := toInt_totalCount hcount
  constructor
  · intro h
    by_contra hcon
    rw [not_or] at hcon
    have hcap : 1 ≤ qCapacity := by decide
    have hpos : 0 ≤ (totalCount count).toInt := by omega
    obtain ⟨c, hr, hf, hnot⟩ :=
      exists_finished_incomplete isValid cursors hcap hpos (by omega) (by omega)
    exact hnot (h c hr hf)
  · rintro (hle | hgt) c hr hf
    · exact complete_of_le hr (by omega) hf
    · exact absurd (fun s => hf (some s)) (producer_unfinished (by omega) hr (by omega))

end Completed

/-- The document that the cursor delivers is counted. -/
theorem completed_iff_counted : CompleteWhenFinished (fun _ => true) 1 oneDocument :=
  (completed_iff (fun _ => true) 1 (by decide) oneDocument).2 (Or.inl (by decide))

/-- **A document inserted after the count is lost**: `main` counts none, the cursor of the only
shard delivers one, and the threads finish with the document in the queue. -/
theorem not_completeWhenFinished : ¬ CompleteWhenFinished (fun _ => true) 0 oneDocument := by
  intro h
  have hcap : 1 ≤ qCapacity := by decide
  have hpos : 0 ≤ (totalCount 0).toInt := by decide
  obtain ⟨c, hr, hf, hnot⟩ :=
    exists_finished_incomplete (fun _ => true) oneDocument hcap hpos (by decide) (by decide)
  exact hnot (h c hr hf)

end Tools
end MongoUtils
