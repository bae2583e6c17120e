import MongoUtils.IpLib.GetCountry

/-!
# `IPLib::GetCountry` on whole objects

* `staysInside_iff`: on a table whose ranges ascend, the lookup of a dotted quad stays inside
  the table, with no wrap-around of `floor` and `ceil`, exactly if the address does not lie
  below the first range;
* `not_staysInside_below`: the smallest table and query that make it leave the table;
* `getCountry_not_address`: a query whose value is not a 32-bit address is never resolved.
-/

namespace MongoUtils
namespace IpLib
namespace IPLib

open Loop

/-! ### Safe lookups -/

/-- The loop of `GetCountry` stops; in every pass the index `mid` is inside the table; and the
updates of `floor` and `ceil` give the values that they have over the integers. -/
structure SafeSearch (t : IPTable) (ip : UInt64) (country : Str) : Prop where
  stops : ∃ n r, Loop.run (searchBody t ip country) n (searchStart t) = some r
  mid_lt : ∀ s, Visits (searchBody t ip country) (searchStart t) s → s.floor ≤ s.ceil →
    s.mid.toNat < t.items.length
  no_wrap : ∀ s s', Visits (searchBody t ip country) (searchStart t) s →
    searchBody t ip country s = .next s' →
    (s'.floor = s.floor ∧ s'.ceil.toNat + 1 = s.mid.toNat) ∨
      (s'.ceil = s.ceil ∧ s'.floor.toNat = s.mid.toNat + 1)

/-- The lookup of `q` never reads outside the table, and below the first range it answers
`-1`. -/
structure StaysInside (lib : IPLib) (q : Quad) : Prop where
  safe : lib.mIpTable.items ≠ [] → ∃ ip, ip2int q.text = .ok ip ∧
    ∀ country, SafeSearch lib.mIpTable ip country
  below : ∀ first ∈ lib.mIpTable.items.head?, q.address < first.start.toNat →
    ∀ country, lib.getCountry q.text country = .ok (lib, -1, country)

theorem safeSearch {t : IPTable} {ip : UInt64} (hne : t.items ≠ []) (hip : NotBelow t ip)
    (country : Str) : SafeSearch t ip country where
  stops := by
    obtain ⟨r, hr, -⟩ := search_terminates hne ip country
    exact ⟨_, r, hr⟩
  mid_lt s hs hle := by
    have hin : InTable t s := hs.invariant (fun _ _ => inTable_next hip) (inTable_searchStart hne)
    have := (Search.mid_bounds hle hin.ceil_lt).2
    have := hin.ceil_lt
    omega
  no_wrap s s' _ h := (update_exact hip h).2

/-- **When a lookup stays inside the table**: in a table whose ranges ascend, exactly if it is
empty or the address does not lie below the first range. -/
theorem staysInside_iff (lib : IPLib) (q : Quad)
    (hasc : lib.mIpTable.items.Pairwise fun x y => x.start ≤ y.start) :
    StaysInside lib q ↔
      ∀ first ∈ lib.mIpTable.items.head?, first.start.toNat ≤ q.address := by
  obtain ⟨ip, hip, haddr⟩ := ip2int_quad q
  constructor
  · intro h first hfirst
    by_contra hlt
    obtain ⟨rest, hitems⟩ : ∃ rest, lib.mIpTable.items = first :: rest := by
      cases hl : lib.mIpTable.items with
      | nil => simp [hl] at hfirst
      | cons x rest => exact ⟨rest, by simpa [hl] using hfirst⟩
    have hne : lib.mIpTable.items ≠ [] := by simp [hitems]
    -- All ranges lie behind the first one, so the search goes down to `0` and leaves the table.
    have hbelow : ∀ item ∈ lib.mIpTable.items, ip < item.start := by
      rw [hitems] at hasc ⊢
      have hfirst_lt : ip < first.start := by rw [UInt64.lt_iff_toNat_lt]; omega
      intro item hitem
      rcases List.mem_cons.1 hitem with rfl | hrest
      · exact hfirst_lt
      · exact UInt64.lt_of_lt_of_le hfirst_lt ((List.pairwise_cons.1 hasc).1 item hrest)
    have hok := h.below first hfirst (by omega) []
    rw [getCountry_eq hne hip, search_below hne hbelow] at hok
    cases hok
  · intro h
    have hnb : NotBelow lib.mIpTable ip := fun first hfirst => by
      rw [UInt64.le_iff_toNat_le, haddr]
      exact h first hfirst
    exact ⟨fun hne => ⟨ip, hip, safeSearch hne hnb⟩,
      fun first hfirst hlt => absurd hlt (not_lt.2 (h first hfirst))⟩

/-- The object after `PushItem("1.0.0.0", "1.0.0.255", "AA")`. -/
def oneRange : IPLib := ⟨⟨[⟨0x01000000, 0x010000FF, ascii "AA"⟩], by decide⟩⟩

theorem reachable_oneRange : Reachable oneRange := by
  have h : new.pushItem (ascii "1.0.0.0") (ascii "1.0.0.255") (ascii "AA") = .ok oneRange := by
    decide +kernel
  exact Reachable.new.pushItem h

/-- `"001.0.0.7"` -/
def quadInside : Quad where
  a := ⟨ascii "001", by decide, by decide +kernel, by decide +kernel⟩
  b := ⟨ascii "0", by decide, by decide +kernel, by decide +kernel⟩
  c := ⟨ascii "0", by decide, by decide +kernel, by decide +kernel⟩
  d := ⟨ascii "7", by decide, by decide +kernel, by decide +kernel⟩

/-- The lookup of `001.0.0.7` in the one range `1.0.0.0` to `1.0.0.255` stays inside. -/
theorem staysInside_iff_inside : StaysInside oneRange quadInside :=
  (staysInside_iff oneRange quadInside (by decide)).2 (by decide)

/-- **The lookup of `0.0.0.1` in the one range `1.0.0.0` to `1.0.0.255` reads outside the
table.** -/
theorem not_staysInside_below :
    Reachable oneRange ∧ IntervalMap.Ascending oneRange.mIpTable.entries ∧
      (Quad.ofFin 0 0 0 1).text = ascii "0.0.0.1" ∧
      oneRange.getCountry (ascii "0.0.0.1") [] = .error .indexOutOfRange ∧
      ¬ StaysInside oneRange (.ofFin 0 0 0 1) := by
  have htext : (Quad.ofFin 0 0 0 1).text = ascii "0.0.0.1" := by decide
  have hread : oneRange.getCountry (ascii "0.0.0.1") [] = .error .indexOutOfRange := by
    decide +kernel
  have hasc : IntervalMap.Ascending oneRange.mIpTable.entries :=
    ⟨by decide, List.pairwise_singleton _ _⟩
  refine ⟨reachable_oneRange, hasc, htext, hread, fun h => ?_⟩
  have hanswer := h.below _ rfl (by decide) []
  rw [htext, hread] at hanswer
  cases hanswer

/-! ### Queries that are no address -/

/-- **A query whose value is not a 32-bit address is never resolved**, whatever the table. -/
theorem getCountry_not_address (lib : IPLib) (hlib : Reachable lib) (query : Str) (ip : UInt64)
    (hip : ip2int query = .ok ip) (hbig : 2 ^ 32 ≤ ip.toNat) (country : Str) :
    lib.getCountry query country =
      .ok (lib, if lib.mIpTable.items = [] then -2 else -1, country) :=
  getCountry_unresolved hlib.bounded hip hbig country

/-- `"0.0.0.-1"` has the value `2 ^ 64 - 1` and is not resolved. -/
theorem getCountry_not_address_negative :
    oneRange.getCountry (ascii "0.0.0.-1") (ascii "??") = .ok (oneRange, -1, ascii "??") :=
  getCountry_not_address oneRange reachable_oneRange (ascii "0.0.0.-1") 0xFFFFFFFFFFFFFFFF
    (by decide +kernel) (by decide) (ascii "??")

end IPLib
end IpLib
end MongoUtils
