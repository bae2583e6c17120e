import MongoUtils.Tools.Completion

/-!
# The narrowing of the count

The driver returns the number of documents as an unsigned 64-bit integer, and `main` stores it in
the `int total_count` that bounds the loop of `dump_writer`.

* `totalCount_lt`: from `2 ^ 31` documents on, `total_count` is below their number;
* `takesAll_iff`: the writer leaves its loop only after it has taken all documents of a collection
  at rest, exactly if there are fewer than `2 ^ 31`;
* `not_takesAll`: of `2 ^ 31` documents it takes none.
-/

namespace MongoUtils
namespace Tools

open Base Monitor

/-- In every run, the writer leaves its loop only after it has taken `count` documents. -/
def TakesAll {S : Type*} [DecidableEq S] (isValid : BSONObj → Bool) (count : UInt64)
    (cursors : S → List BSONObj) : Prop :=
  ∀ c, (dump qCapacity isValid).Reaches (mainStart count cursors) c →
    (dump qCapacity isValid).Finished c none → (takes c.log).length = count.toNat

/-- An `int` cannot hold so many. -/
theorem totalCount_lt {count : UInt64} (h : 2 ^ 31 ≤ count.toNat) :
    (totalCount count).toInt < count.toNat := by
  have := (totalCount count).toInt_lt
  omega

/-- **When the writer takes the whole of a collection**, whose cursors deliver as many documents as
were counted: exactly if there are fewer than `2 ^ 31` of them. -/
theorem takesAll_iff {S : Type*} [Fintype S] [DecidableEq S] (isValid : BSONObj → Bool)
    (count : UInt64) (cursors : S → List BSONObj) (hcount : documents cursors = count.toNat) :
    TakesAll isValid count cursors ↔ count.toNat < 2 ^ 31 := by
  constructor
  · intro h
    by_contra hbig
    have hlt := totalCount_lt (not_lt.1 hbig)
    obtain ⟨c, hr, hstuck⟩ := (dump_finite qCapacity isValid).exists_stuck (mainStart count cursors)
    have hfinished := writer_finished_of_stuck (by decide) hr (by omega) hstuck
    have htakes := h c hr hfinished
    obtain ⟨unread, hbal⟩ := reaches_balance hr
    have hle := hbal.takes_le
    omega
  · intro hlt c hr hfinished
    have htotal := toInt_totalCount hlt
    obtain ⟨unread, hbal⟩ := reaches_balance hr
    have hle := hbal.takes_le
    have hge := hbal.writer_finished.1 hfinished
    omega

/-- Of a collection of one document, the writer takes it. -/
theorem takesAll_iff_oneDocument : TakesAll (fun _ => true) 1 oneDocument :=
  (takesAll_iff (fun _ => true) 1 oneDocument (by decide)).2 (by decide)

/-- One shard with `2 ^ 31` empty documents. -/
def hugeCollection : Unit → List BSONObj := fun _ => List.replicate (2 ^ 31) ⟨[5, 0, 0, 0, 0]⟩

/-- **A collection of `2 ^ 31` documents is not dumped**: `total_count` is `-2 ^ 31`, so the writer
has nothing to take and leaves its loop at once. -/
theorem not_takesAll :
    documents hugeCollection = (2147483648 : UInt64).toNat ∧
      ¬ TakesAll (fun _ => true) 2147483648 hugeCollection := by
  constructor
  · rw [documents, Fintype.sum_unique, hugeCollection, List.length_replicate]
    rfl
  · intro h
    have hfinished : (dump qCapacity fun _ => true).Finished
        (mainStart 2147483648 hugeCollection) none := by
      show (Locals.dumpWriter (totalCount 2147483648) 0 0 []).call = none
      rw [Locals.call, if_neg (by decide)]
    have htakes := h _ Relation.ReflTransGen.refl hfinished
    have hnone : (0 : ℕ) = (2147483648 : UInt64).toNat := htakes
    exact absurd hnone (by decide)

end Tools
end MongoUtils
