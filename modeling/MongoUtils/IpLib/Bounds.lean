import MongoUtils.IpLib.GetCountry

/-!
# Bounds and queries

`LoadDict` and `PushItem` narrow the 64-bit result of `ip2int` to 32 bits, and `GetCountry`
does not. So a bound can be stored under another number than the one it is queried as, and the
rejection value `-1` is stored as `255.255.255.255`.

* `StoredAsQueried`: a bound that `ip2int` accepts is found again, and one that it rejects
  makes the entry empty;
* `storedAsQueried_iff`: this holds exactly for the strings with four parts whose weighted sum
  is a 32-bit value.
-/

namespace MongoUtils
namespace IpLib

/-- The entry that was added last contains no address. -/
def LastIsEmpty (t : IPTable) : Prop :=
  ∀ item ∈ t.items.getLast?, ∀ address, ¬ item.entry.Contains address

/-- `b` is stored under the number that it is queried as: if `ip2int` accepts it, the range from
`b` to `b` is found by the query `b`; if `ip2int` rejects it, an entry with `b` for a bound
contains no address, whether `PushItem` adds it or a line of `LoadDict`. -/
structure StoredAsQueried (b country : Str) : Prop where
  accepted : ∀ v, ip2int b = .ok v → v ≠ -1 →
    ∃ lib, IPLib.new.pushItem b b country = .ok lib ∧
      ∀ old, lib.getCountry b old = .ok (lib, 0, country)
  rejected_start : ip2int b = .ok (-1) → ∀ (lib lib' : IPLib) (other : Str),
    lib.pushItem b other country = .ok lib' → LastIsEmpty lib'.mIpTable
  rejected_stop : ip2int b = .ok (-1) → ∀ (lib lib' : IPLib) (other : Str),
    lib.pushItem other b country = .ok lib' → LastIsEmpty lib'.mIpTable
  rejected_line : ip2int b = .ok (-1) → ∀ (t t' : IPTable) (line : Str) (fields : List Str),
    splitString line [] 124 = .ok fields → (fields[0]? = some b ∨ fields[1]? = some b) →
    fields[2]? = some country → IPLib.loadLine t line = .ok t' → LastIsEmpty t'

/-- `PushItem` on an empty object. -/
theorem pushItem_new {start stop : Str} {s e : UInt64} (hs : ip2int start = .ok s)
    (he : ip2int stop = .ok e) (country : Str) :
    IPLib.new.pushItem start stop country =
      .ok ⟨.single ⟨narrow s, narrow e, country⟩⟩ :=
  IPLib.pushItem_eq_ok.2 ⟨s, e, hs, he, IPTable.pushBack_empty _⟩

/-- A 32-bit value finds the range that begins and ends with it. -/
theorem getCountry_single {b : Str} {v : UInt64} (hv : ip2int b = .ok v) (country old : Str) :
    (⟨.single ⟨v, v, country⟩⟩ : IPLib).getCountry b old =
      .ok (⟨.single ⟨v, v, country⟩⟩, 0, country) := by
  set lib : IPLib := ⟨.single ⟨v, v, country⟩⟩ with hlib
  have hne : lib.mIpTable.items ≠ [] := by simp [hlib, IPTable.single]
  have hasc : IntervalMap.Ascending lib.mIpTable.entries :=
    ⟨by simp [hlib, IPTable.single, IPTable.entries, IPItem.entry], List.pairwise_singleton _ _⟩
  have hnb : IPLib.NotBelow lib.mIpTable v := by
    simp [hlib, IPTable.single, IPLib.NotBelow]
  have hentry : lib.mIpTable.entries[0]? = some ⟨v.toNat, v.toNat, country⟩ := rfl
  rw [IPLib.getCountry_eq hne hv, IPLib.search_refines_lookup hne hasc hnb,
    hasc.lookup_eq_some hentry ⟨le_rfl, le_rfl⟩]
  rfl

/-- A rejected end bound does not make the range empty: the range of all addresses. -/
theorem not_lastIsEmpty_open (country : Str) :
    ¬ LastIsEmpty (.single ⟨narrow 0, narrow (-1), country⟩) := by
  intro h
  have h0 := h ⟨narrow 0, narrow (-1), country⟩ (by simp [IPTable.single]) 0
  refine h0 ⟨?_, Nat.zero_le _⟩
  show (narrow 0).toNat ≤ 0
  decide

/-- **Which bounds are stored as they are queried**: exactly the strings with four parts whose
weighted sum is a 32-bit value. -/
theorem storedAsQueried_iff (b country : Str) (hb : ∃ r, splitString b [] 46 = .ok r) :
    StoredAsQueried b country ↔
      ∃ r0 r1 r2 r3, splitString b [] 46 = .ok [r0, r1, r2, r3] ∧
        0 ≤ weigh (atoi r0).toInt (atoi r1).toInt (atoi r2).toInt (atoi r3).toInt ∧
        weigh (atoi r0).toInt (atoi r1).toInt (atoi r2).toInt (atoi r3).toInt < 2 ^ 32 := by
  obtain ⟨v, hv⟩ := (ip2int_ok_iff b).2 hb
  rw [← ip2int_lt_iff hv]
  constructor
  · intro h
    by_contra hbig
    by_cases hrej : v = -1
    · have hzero : ip2int (ascii "0.0.0.0") = .ok 0 := by decide +kernel
      -- A rejected bound is stored as `255.255.255.255`.
      rw [hrej] at hv
      exact not_lastIsEmpty_open country
        (h.rejected_stop hv .new _ (ascii "0.0.0.0") (pushItem_new hzero hv country))
    · obtain ⟨lib, hpush, hget⟩ := h.accepted v hv hrej
      -- No entry reaches an address of more than 32 bits.
      have hreach : lib.Reachable := IPLib.Reachable.new.pushItem hpush
      have hcode := IPLib.getCountry_unresolved hreach.bounded hv (not_lt.1 hbig) []
      rw [hget, Except.ok.injEq, Prod.mk.injEq, Prod.mk.injEq] at hcode
      have hzero := hcode.2.1
      split_ifs at hzero <;> exact absurd hzero (by decide)
  · intro hlt
    have hrej : v ≠ -1 := by
      rintro rfl
      exact absurd hlt (by decide)
    have hnot : ip2int b ≠ .ok (-1) := by
      rw [hv]
      exact fun h => hrej (Except.ok.inj h)
    refine ⟨fun v' hv' _ => ?_, fun h => absurd h hnot, fun h => absurd h hnot,
      fun h => absurd h hnot⟩
    obtain rfl : v = v' := Except.ok.inj (hv.symm.trans hv')
    refine ⟨_, pushItem_new hv hv country, fun old => ?_⟩
    rw [narrow_of_lt hlt]
    exact getCountry_single hv country old

/-- `"1.2.3.4"` is stored as it is queried. -/
theorem storedAsQueried_iff_quad : StoredAsQueried (ascii "1.2.3.4") (ascii "AA") :=
  (storedAsQueried_iff (ascii "1.2.3.4") (ascii "AA")
    ⟨[ascii "1", ascii "2", ascii "3", ascii "4"], by decide +kernel⟩).2
    ⟨ascii "1", ascii "2", ascii "3", ascii "4", by decide +kernel⟩

/-- **Two bounds that are not stored as they are queried.** `256.0.0.0` is accepted, stored as
`0.0.0.0` and not found again; `1.2.3` is rejected, and as an end bound it extends the range
from `1.0.0.0` up to `255.255.255.255`. -/
theorem not_storedAsQueried :
    ¬ StoredAsQueried (ascii "256.0.0.0") (ascii "AA") ∧
      ¬ StoredAsQueried (ascii "1.2.3") (ascii "AA") := by
  constructor
  · intro h
    have hpush : IPLib.new.pushItem (ascii "256.0.0.0") (ascii "256.0.0.0") (ascii "AA") =
        .ok ⟨.single ⟨0, 0, ascii "AA"⟩⟩ := by decide +kernel
    obtain ⟨lib, hlib, hget⟩ := h.accepted 0x100000000 (by decide +kernel) (by decide)
    obtain rfl := Except.ok.inj (hpush.symm.trans hlib)
    exact absurd (hget []) (by decide +kernel)
  · intro h
    have hpush : IPLib.new.pushItem (ascii "1.0.0.0") (ascii "1.2.3") (ascii "AA") =
        .ok ⟨.single ⟨0x01000000, 0xFFFFFFFF, ascii "AA"⟩⟩ := by decide +kernel
    have hempty := h.rejected_stop (by decide +kernel) .new _ (ascii "1.0.0.0") hpush
    exact hempty ⟨0x01000000, 0xFFFFFFFF, ascii "AA"⟩ rfl 0xFFFFFFFF ⟨by decide, by decide⟩

end IpLib
end MongoUtils
