import MongoUtils.Base.Linearizable
import MongoUtils.Tools.Completion

/-!
# The dump, line by line

The threads of `mongodump2` around the queue `q`, with the methods of the queue as lines. The
monitor of this program is `dump` (`dumpLines_monitor`), so that what is known of the critical
sections holds of every interleaving of the lines.

* `Merge`: a sequence of documents in which those of every shard are a prefix of its cursor, in the
  order of the cursor;
* `taken_merge`, `length_takes_of_stuck`: what the writer has taken when no thread can run;
* `Ending`, `ending_of_stuck`: what has become of the threads when none can run;
* `dumpLines_outcome`: how long a run of the program can be, and how it ends.
-/

namespace MongoUtils
namespace Tools

open Base Monitor

variable {S : Type*} {K : ℕ} {isValid : BSONObj → Bool} {total : Int32}
  {cursors : S → List BSONObj}

/-- The lines of the threads around the queue `q` of capacity `K`. -/
def dumpLines (K : ℕ) (isValid : BSONObj → Bool) :
    Locking.Program (CircularBuffer BSONObj K) Cond (Call BSONObj) (Reply BSONObj)
      (Option BSONObj) Locals :=
  BoundedBlockingQueue.clientProgram K (client isValid)

theorem dumpLines_monitor : (dumpLines K isValid).monitor = dump K isValid :=
  BoundedBlockingQueue.clientProgram_monitor K (client isValid)

abbrev LineConfig (K : ℕ) (S : Type*) : Type _ :=
  Locking.Config (CircularBuffer BSONObj K) Cond (Call BSONObj) (Reply BSONObj) (Option BSONObj)
    Locals (Option S)

/-- The state of the program when `main` has started the threads. -/
def linesStart (K : ℕ) (total : Int32) (cursors : S → List BSONObj) : LineConfig K S :=
  Locking.start .new (dumpLocals total cursors)

/-! ### The order of the documents -/

/-- The documents of shard `s`. -/
def fromShard [DecidableEq S] (s : S) (docs : List (S × BSONObj)) : List BSONObj :=
  docs.filterMap fun p => if p.1 = s then some p.2 else none

/-- A sequence of documents, each with the shard that it comes from: those of a shard are the first
ones of its cursor, in their order. -/
def Merge [DecidableEq S] (cursors : S → List BSONObj) (docs : List (S × BSONObj)) : Prop :=
  ∀ s, fromShard s docs <+: cursors s

/-- Every document of the cursors is there. -/
def Full [DecidableEq S] (cursors : S → List BSONObj) (docs : List (S × BSONObj)) : Prop :=
  ∀ s, fromShard s docs = cursors s

section Reached

variable [DecidableEq S] {c : DumpConfig K S}

/-- The documents taken, with the shards that they come from. -/
def taken (log : List (Event (Option S) (Call BSONObj) (Option BSONObj))) :
    List (S × BSONObj) :=
  ((putBy log).take (takes log).length).filterMap fun p => p.1.map (·, p.2)

theorem fromShard_taken (s : S)
    (log : List (Event (Option S) (Call BSONObj) (Option BSONObj))) :
    fromShard s (taken log) = takenFrom s log := by
  rw [fromShard, taken, takenFrom, List.filterMap_filterMap]
  refine List.filterMap_congr fun p _ => ?_
  obtain ⟨t, d⟩ := p
  cases t with
  | none => simp
  | some t => simp

/-- Only the shards put. -/
theorem exists_shard (hr : (dump K isValid).Reaches (dumpStart K total cursors) c)
    {p : Option S × BSONObj} (hp : p ∈ putBy c.log) : ∃ s, p.1 = some s := by
  obtain ⟨e, he, hput⟩ := List.mem_filterMap.1 hp
  obtain ⟨d, hd, rfl⟩ := Option.map_eq_some_iff.1 hput
  cases ht : e.thread with
  | some s => exact ⟨s, rfl⟩
  | none =>
    have hnone : puts (own none c.log) = [] := (reaches_ledger hr none).1
    have hmem : e ∈ own none c.log := List.mem_filter.2 ⟨he, by simpa using ht⟩
    rw [List.filterMap_eq_nil_iff.1 hnone e hmem] at hd
    cases hd

/-- **The documents taken are a merge of the cursors.** -/
theorem taken_merge (hr : (dump K isValid).Reaches (dumpStart K total cursors) c) :
    (taken c.log).map Prod.snd = takes c.log ∧ Merge cursors (taken c.log) := by
  constructor
  · refine Eq.trans ?_ (takes_eq_putBy hr).symm
    rw [taken, List.map_filterMap, ← List.filterMap_eq_map]
    refine List.filterMap_congr fun p hp => ?_
    obtain ⟨s, hs⟩ := exists_shard hr (List.mem_of_mem_take hp)
    simp [hs]
  · intro s
    rw [fromShard_taken]
    exact takenFrom_prefix hr s

/-- All documents are taken when the queue is empty and the producers have finished. -/
theorem taken_full [Fintype S] (hr : (dump K isValid).Reaches (dumpStart K total cursors) c)
    (hlen : (takes c.log).length = documents cursors) : Full cursors (taken c.log) := by
  obtain ⟨unread, hbal⟩ := reaches_balance hr
  have hsum := hbal.sum
  have hitems : c.shared.items = [] := List.length_eq_zero_iff.1 (by omega)
  have hunread : ∑ s, unread s = 0 := by omega
  -- Everything that was put has been taken.
  have hall : (putBy c.log).take (takes c.log).length = putBy c.log := by
    refine List.take_of_length_le ?_
    have hputs := congrArg List.length (queue_exact hr).1
    rw [hitems, List.append_nil] at hputs
    rw [hputs, ← putBy_map_snd, List.length_map]
  intro s
  rw [fromShard_taken, takenFrom, hall, filterMap_putBy]
  obtain ⟨-, cursor, hloc, hputs⟩ := reaches_ledger hr (some s)
  have hfin := (hbal.producer_finished s).2 (Finset.sum_eq_zero_iff.1 hunread s (Finset.mem_univ s))
  rw [System.Finished, hloc, dump_call] at hfin
  cases cursor with
  | nil => rwa [List.append_nil] at hputs
  | cons d cursor => cases hfin

/-- The producers have put all documents, and the writer has taken them, when no thread can run and
the writer wants more. -/
theorem all_put_of_stuck [Fintype S] (hK : 1 ≤ K)
    (hr : (dump K isValid).Reaches (dumpStart K total cursors) c)
    (hlt : documents cursors < total.toInt) (hstuck : (dump K isValid).Stuck c) {unread : S → ℕ}
    (hbal : Balance isValid total cursors c unread) :
    c.shared.items = [] ∧ ∀ s, unread s = 0 := by
  have ha := (System.stuck_iff (queue_exact hr).2).1 hstuck
  have hnil := items_eq_nil_of_writer hr ha (writer_unfinished hr hlt)
  refine ⟨hnil, fun s => ?_⟩
  rw [← hbal.producer_finished s]
  by_contra hs
  -- The producer would have to sleep on a full queue.
  have hfull := length_eq_of_producer hr ha hs
  rw [hnil, List.length_nil] at hfull
  omega

/-- The writer has taken `T` documents, or all that there are, when no thread can run. -/
theorem length_takes_of_stuck [Fintype S] (hK : 1 ≤ K)
    (hr : (dump K isValid).Reaches (dumpStart K total cursors) c)
    (hstuck : (dump K isValid).Stuck c) :
    ((takes c.log).length : ℤ) = min (max 0 total.toInt) (documents cursors) := by
  obtain ⟨unread, hbal⟩ := reaches_balance hr
  have hsum := hbal.sum
  have hle := hbal.takes_le
  by_cases hlt : total.toInt ≤ documents cursors
  · have hdone := hbal.writer_finished.1 (writer_finished_of_stuck hK hr hlt hstuck)
    omega
  · obtain ⟨hitems, hunread⟩ := all_put_of_stuck hK hr (by omega) hstuck hbal
    rw [hitems, List.length_nil, Finset.sum_eq_zero fun s _ => hunread s] at hsum
    omega

/-- The producers finish if the documents that the writer leaves fit into the queue. -/
theorem producers_finished_of_stuck [Fintype S] (hK : 1 ≤ K)
    (hr : (dump K isValid).Reaches (dumpStart K total cursors) c)
    (hle : (documents cursors : ℤ) ≤ max 0 total.toInt + K)
    (hstuck : (dump K isValid).Stuck c) (s : S) : (dump K isValid).Finished c (some s) := by
  obtain ⟨unread, hbal⟩ := reaches_balance hr
  have ha := (System.stuck_iff (queue_exact hr).2).1 hstuck
  have hlen := length_takes_of_stuck hK hr hstuck
  have hsum := hbal.sum
  by_contra hs
  -- A producer sleeps on a full queue, and has a document left.
  have hfull := length_eq_of_producer hr ha hs
  have hunread : unread s ≠ 0 := mt (hbal.producer_finished s).2 hs
  have hone := Finset.single_le_sum (fun s _ => Nat.zero_le (unread s)) (Finset.mem_univ s)
  omega

/-- All threads finish exactly if the writer takes no more documents than there are, and those that
it leaves fit into the queue. -/
theorem finished_iff_of_stuck [Fintype S] (hK : 1 ≤ K)
    (hr : (dump K isValid).Reaches (dumpStart K total cursors) c)
    (hstuck : (dump K isValid).Stuck c) :
    (∀ t, (dump K isValid).Finished c t) ↔
      max 0 total.toInt ≤ documents cursors ∧ (documents cursors : ℤ) ≤ max 0 total.toInt + K := by
  constructor
  · intro h
    obtain ⟨unread, hbal⟩ := reaches_balance hr
    have hsum := hbal.sum
    have hle := hbal.takes_le
    have hroom := c.shared.length_le
    rw [Finset.sum_eq_zero fun s _ => (hbal.producer_finished s).1 (h (some s))] at hsum
    constructor
    · by_contra hlt
      exact writer_unfinished hr (by omega) (h none)
    · omega
  · rintro ⟨hle, hge⟩ (_ | s)
    · exact writer_finished_of_stuck hK hr ((le_max_right _ _).trans hle) hstuck
    · exact producers_finished_of_stuck hK hr hge hstuck s

end Reached

/-! ### The runs of the program -/

/-- What has to be done when `main` has started the threads. -/
theorem load_linesStart [Fintype S] [DecidableEq S] :
    (dumpLines K isValid).load Locals.remaining 3 (linesStart K total cursors) =
      (9 * (Fintype.card S + 1) + 1) * (total.toInt.toNat + documents cursors) +
        7 * (Fintype.card S + 1) + 1 := by
  have hremaining : ∑ t, Locals.remaining (dumpLocals total cursors t) =
      total.toInt.toNat + documents cursors := by
    rw [Fintype.sum_option]
    simp [dumpLocals, Locals.remaining, documents]
  have hload : (dumpLines K isValid).load Locals.remaining 3 (linesStart K total cursors) =
      (Fintype.card (Option S) * 9 + 1) *
        ∑ t, Locals.remaining (dumpLocals total cursors t) +
      ∑ _t : Option S, 7 + 1 := rfl
  rw [hload, hremaining, Finset.sum_const, Finset.card_univ, Fintype.card_option, smul_eq_mul,
    mul_comm 9, mul_comm 7]

theorem dumpLines_finite : (dumpLines K isValid).monitor.Finite Locals.remaining := by
  rw [dumpLines_monitor]
  exact dump_finite K isValid

/-- The writer is left with what it wants beyond the documents that there are. -/
theorem le_remaining [Fintype S] [DecidableEq S] {f : LineConfig K S}
    (hr : (dumpLines K isValid).Reaches (linesStart K total cursors) f) :
    total.toInt.toNat - documents cursors ≤
      ∑ t, Locals.remaining ((dumpLines K isValid).after (f.phase t) (f.loc t)) := by
  obtain ⟨c, hc, hsim⟩ := Locking.Program.refines hr
  rw [dumpLines_monitor] at hc
  obtain ⟨counter, invalidCounter, hloc, hcounter, -⟩ := reaches_writer hc
  obtain ⟨unread, hbal⟩ := reaches_balance hc
  have hsum := hbal.sum
  have hafter := (hsim.thread none).loc
  have hwriter : total.toInt.toNat - documents cursors ≤
      Locals.remaining ((dumpLines K isValid).after (f.phase none) (f.loc none)) := by
    rw [← hafter, hloc, Locals.remaining]
    omega
  refine hwriter.trans (Finset.single_le_sum (s := Finset.univ)
    (f := fun t => Locals.remaining ((dumpLines K isValid).after (f.phase t) (f.loc t)))
    (fun t _ => Nat.zero_le _) (Finset.mem_univ none))

/-- **The length of a run** with `w` spurious wakeups: the writer takes no more documents than there
are, whatever its total. -/
theorem length_le_of_run [Fintype S] [DecidableEq S] {n w : ℕ} {f : LineConfig K S}
    (hr : (dumpLines K isValid).Run n w (linesStart K total cursors) f) :
    n ≤ (9 * (Fintype.card S + 1) + 1) * (min total.toInt.toNat (documents cursors) +
        documents cursors) + 7 * (Fintype.card S + 1) + 1 + 6 * w := by
  have hlength := hr.length_le dumpLines_finite (B := 3) BoundedBlockingQueue.length_lines_le
  rw [show Locking.start .new (dumpLocals total cursors) = linesStart K total cursors from rfl,
    load_linesStart] at hlength
  set a := 9 * (Fintype.card S + 1) + 1 with ha
  -- What the writer wants beyond the documents is still to be done at the end of the run.
  have hleft : a * (total.toInt.toNat - documents cursors) ≤
      (dumpLines K isValid).load Locals.remaining 3 f := by
    refine (Nat.mul_le_mul_left a (le_remaining hr.reaches)).trans ?_
    rw [Locking.Program.load, Fintype.card_option, mul_comm (Fintype.card S + 1) (3 + 6)]
    exact (Nat.le_add_right _ _).trans (Nat.le_add_right _ _)
  have hsplit : total.toInt.toNat + documents cursors =
      min total.toInt.toNat (documents cursors) + documents cursors +
        (total.toInt.toNat - documents cursors) := by omega
  rw [hsplit, Nat.mul_add a] at hlength
  omega

/-- What has become of the threads when none can run any more. The total of the writer may be
negative. -/
structure Ending [Fintype S] [DecidableEq S] (K : ℕ) (isValid : BSONObj → Bool) (total : Int32)
    (cursors : S → List BSONObj) (f : LineConfig K S) : Prop where
  finished_iff : (∀ t, (dumpLines K isValid).Finished f t) ↔
    max 0 total.toInt ≤ documents cursors ∧ (documents cursors : ℤ) ≤ max 0 total.toInt + K
  producers_finished : (documents cursors : ℤ) ≤ max 0 total.toInt + K →
    ∀ s, (dumpLines K isValid).Finished f (some s)
  written : ∃ docs counter invalidCounter, Merge cursors docs ∧
    (docs.length : ℤ) = min (max 0 total.toInt) (documents cursors) ∧
    (documents cursors ≤ max 0 total.toInt → Full cursors docs) ∧
    f.loc none = .dumpWriter total counter invalidCounter
      (((docs.map Prod.snd).filter isValid).flatMap BSONObj.objdata) ∧
    counter.toInt = docs.length ∧
    counter.toInt = ((docs.map Prod.snd).filter isValid).length + invalidCounter.toInt

/-- **How the threads end.** No assertion and no pthread call fails on the way. -/
theorem ending_of_stuck [Fintype S] [DecidableEq S] (hK : 1 ≤ K) {f : LineConfig K S}
    (hr : (dumpLines K isValid).Reaches (linesStart K total cursors) f) :
    f.aborted = false ∧ f.failed = false ∧
      ((dumpLines K isValid).Stuck f → Ending K isValid total cursors f) := by
  have ho := Locking.Program.reaches_orderly hr
  obtain ⟨c, hc, hsim⟩ := Locking.Program.refines hr
  rw [dumpLines_monitor] at hc
  have habort : f.aborted = false := hsim.aborted.symm.trans (queue_exact hc).2
  refine ⟨habort, ho.failed, fun hst => ?_⟩
  obtain ⟨hstuck, -, hloc, hfinished⟩ := hsim.stuck ho habort hst
  rw [dumpLines_monitor] at hstuck hfinished
  constructor
  · rw [← finished_iff_of_stuck hK hc hstuck]
    exact forall_congr' fun t => (hfinished t).symm
  · intro hle s
    exact (hfinished (some s)).1 (producers_finished_of_stuck hK hc hle hstuck s)
  · obtain ⟨counter, invalidCounter, hwriter, hcounter, -, hsum⟩ := reaches_writer hc
    obtain ⟨hsnd, hmerge⟩ := taken_merge hc
    have hlen := length_takes_of_stuck hK hc hstuck
    have hdocs : (taken c.log).length = (takes c.log).length := by
      rw [← hsnd, List.length_map]
    refine ⟨taken c.log, counter, invalidCounter, hmerge, by rw [hdocs, hlen], fun hle => ?_, ?_,
      by rw [hdocs, hcounter], by rw [hsnd, hsum]⟩
    · exact taken_full hc (by omega)
    · rw [hsnd, ← hloc]
      exact hwriter

/-- **The dump as it runs, line by line.** Write `T` for the documents that the writer wants, none if
its total is negative, and `D` for the documents of the cursors. A run with `w` spurious wakeups is
not longer than a bound in the threads, the documents and `w`, whatever the scheduler does, and no
assertion and no pthread call fails in it. When no thread can run any more, all threads have finished
exactly if `T ≤ D ≤ T + K`, and the output file holds the valid ones of `min T D` documents, in an
order that merges the cursors; of all documents if `D ≤ T`. -/
theorem dumpLines_outcome [Fintype S] [DecidableEq S] (hK : 1 ≤ K) {n w : ℕ} {f : LineConfig K S}
    (hr : (dumpLines K isValid).Run n w (linesStart K total cursors) f) :
    n ≤ (9 * (Fintype.card S + 1) + 1) * (min total.toInt.toNat (documents cursors) +
        documents cursors) + 7 * (Fintype.card S + 1) + 1 + 6 * w ∧
    f.aborted = false ∧ f.failed = false ∧
    ((dumpLines K isValid).Stuck f →
      ((∀ t, (dumpLines K isValid).Finished f t) ↔
        max 0 total.toInt ≤ documents cursors ∧ documents cursors ≤ max 0 total.toInt + K) ∧
      ∃ docs counter invalidCounter, Merge cursors docs ∧
        (docs.length : ℤ) = min (max 0 total.toInt) (documents cursors) ∧
        (documents cursors ≤ max 0 total.toInt → Full cursors docs) ∧
        f.loc none = .dumpWriter total counter invalidCounter
          (((docs.map Prod.snd).filter isValid).flatMap BSONObj.objdata) ∧
        counter.toInt = docs.length ∧
        counter.toInt = ((docs.map Prod.snd).filter isValid).length + invalidCounter.toInt) := by
  obtain ⟨habort, hfailed, hend⟩ := ending_of_stuck hK hr.reaches
  refine ⟨length_le_of_run hr, habort, hfailed, fun hst => ?_⟩
  obtain ⟨hfinished, -, hwritten⟩ := hend hst
  exact ⟨hfinished, hwritten⟩

/-- The dump of one document through a queue of one slot, to its end. -/
theorem dumpLines_outcome_oneDocument :
    ∃ f : LineConfig 1 Unit, (dumpLines 1 fun _ => true).Stuck f ∧
      (∀ t, (dumpLines 1 fun _ => true).Finished f t) ∧
      ∃ docs : List (Unit × BSONObj), Full oneDocument docs := by
  obtain ⟨n, f, hr, hst⟩ := (Locking.Program.Run.refl (f := linesStart 1 1 oneDocument)).exists_stuck
    dumpLines_finite BoundedBlockingQueue.length_lines_le
  obtain ⟨-, -, -, hend⟩ := dumpLines_outcome le_rfl hr
  obtain ⟨hfinished, docs, -, -, -, -, hfull, -⟩ := hend hst
  exact ⟨f, hst, hfinished.2 (by decide), docs, hfull (by decide)⟩

end Tools
end MongoUtils
