import MongoUtils.IpLib.IpTable

/-!
# `IPLib::GetCountry`: the binary search

`floor`, `ceil` and `mid` are unsigned, and the loop updates `ceil` to `mid - 1` when the
address lies below the range at `mid`. At `mid = 0` this wraps around to `2 ^ 64 - 1`, and
the next pass reads far outside the table.

* `searchBody_next`: what one pass does to `floor` and `ceil`;
* `search_terminates`: for every table and every address the loop stops;
* `search_ok`: without reading outside the table unless the address lies below the first
  range; `search_below` says that it does read outside then, if the ranges ascend;
* `search_unresolved`: an address above every bound is not found, in any table;
* `search_refines_lookup`: in an ascending table the search computes `IntervalMap.lookup`.
-/

namespace MongoUtils
namespace IpLib
namespace IPLib

open Loop

variable {t : IPTable} {ip : UInt64} {country : Str} {s s' : Search}

/-! ### `size_t` arithmetic -/

theorem toNat_sub_one {x : UInt64} (h : 0 < x.toNat) : (x - 1).toNat = x.toNat - 1 := by
  have hlt := x.toNat_lt
  simp only [UInt64.toNat_sub, UInt64.reduceToNat]
  omega

theorem toNat_add_one {x : UInt64} (h : x.toNat + 1 < 2 ^ 64) : (x + 1).toNat = x.toNat + 1 := by
  simp only [UInt64.toNat_add, UInt64.reduceToNat]
  omega

/-! ### One pass -/

/-- While `ceil` is an index of the table, `floor + ceil` does not wrap around, and `mid` lies
between the two. -/
theorem Search.mid_bounds (hle : s.floor ≤ s.ceil) (hceil : s.ceil.toNat < t.items.length) :
    s.floor.toNat ≤ s.mid.toNat ∧ s.mid.toNat ≤ s.ceil.toNat := by
  have hsize := t.size_le
  unfold maxSize at hsize
  rw [UInt64.le_iff_toNat_le] at hle
  have hmid : s.mid.toNat = (s.floor.toNat + s.ceil.toNat) / 2 := by
    simp only [Search.mid, UInt64.toNat_div, UInt64.toNat_add, UInt64.reduceToNat]
    omega
  omega

/-- **What a pass that goes on does**: it has read the entry at `mid`, and moves `ceil` below
it or `floor` above it. -/
theorem searchBody_next (h : searchBody t ip country s = .next s') :
    s.floor ≤ s.ceil ∧ ∃ item, t.items[s.mid.toNat]? = some item ∧
      ((ip < item.start ∧ s' = ⟨s.floor, s.mid - 1⟩) ∨
        (item.start ≤ ip ∧ item.stop < ip ∧ s' = ⟨s.mid + 1, s.ceil⟩)) := by
  unfold searchBody at h
  split_ifs at h with hle
  refine ⟨hle, ?_⟩
  dsimp only at h
  cases hitem : t.items[s.mid.toNat]? with
  | none => rw [hitem] at h; cases h
  | some item =>
    rw [hitem] at h
    dsimp only at h
    split_ifs at h with hin hlt
    · exact ⟨item, rfl, Or.inl ⟨hlt, by cases h; rfl⟩⟩
    · have hge : item.start ≤ ip := UInt64.not_lt.1 hlt
      have hstop : item.stop < ip := UInt64.not_le.1 fun hle' => hin ⟨hge, hle'⟩
      exact ⟨item, rfl, Or.inr ⟨hge, hstop, by cases h; rfl⟩⟩

/-- What a pass that leaves the loop has seen. -/
theorem searchBody_done {r : Except Fault (Int32 × Str)}
    (h : searchBody t ip country s = .done r) :
    (s.ceil < s.floor ∧ r = .ok (-1, country)) ∨
      (s.floor ≤ s.ceil ∧ t.items[s.mid.toNat]? = none ∧ r = .error .indexOutOfRange) ∨
      (s.floor ≤ s.ceil ∧ ∃ item, t.items[s.mid.toNat]? = some item ∧
        item.start ≤ ip ∧ ip ≤ item.stop ∧ r = .ok (0, item.country)) := by
  unfold searchBody at h
  split_ifs at h with hle
  · dsimp only at h
    cases hitem : t.items[s.mid.toNat]? with
    | none =>
      rw [hitem] at h
      exact Or.inr (Or.inl ⟨hle, rfl, by cases h; rfl⟩)
    | some item =>
      rw [hitem] at h
      dsimp only at h
      split_ifs at h with hin
      exact Or.inr (Or.inr ⟨hle, item, rfl, hin.1, hin.2, by cases h; rfl⟩)
  · exact Or.inl ⟨UInt64.not_le.1 hle, by cases h; rfl⟩

/-- `ceil` starts at the last index. -/
theorem toNat_ceil_searchStart (hne : t.items ≠ []) :
    (searchStart t).ceil.toNat + 1 = t.items.length := by
  have hlen := List.length_pos_iff.2 hne
  have hsize := t.toNat_size
  rw [searchStart, toNat_sub_one (by omega), hsize]
  omega

/-! ### The loop stops -/

/-- `ceil` is an index of the table, or the search has wrapped around in the last pass. -/
def Searching (t : IPTable) (s : Search) : Prop :=
  s.ceil.toNat < t.items.length ∨ (s.floor = 0 ∧ s.ceil.toNat = 2 ^ 64 - 1)

/-- How many passes are left at most. -/
def passesLeft (t : IPTable) (s : Search) : ℕ :=
  if s.ceil.toNat < t.items.length then s.ceil.toNat + 2 - s.floor.toNat else 0

/-- After the wrap-around `mid` is `2 ^ 63 - 1`, far behind the end of every table. -/
theorem getElem?_mid_of_wrapped (hfloor : s.floor = 0) (hceil : s.ceil.toNat = 2 ^ 64 - 1) :
    t.items[s.mid.toNat]? = none := by
  have hsize := t.size_le
  unfold maxSize at hsize
  have hmid : s.mid.toNat = 2 ^ 63 - 1 := by
    rw [Search.mid, hfloor, UInt64.zero_add, UInt64.toNat_div, hceil]
    rfl
  rw [List.getElem?_eq_none_iff]
  omega

theorem searching_next (hs : Searching t s) (h : searchBody t ip country s = .next s') :
    Searching t s' ∧ passesLeft t s' < passesLeft t s := by
  obtain ⟨hle, item, hitem, hcase⟩ := searchBody_next h
  rcases hs with hceil | ⟨hfloor, hceil⟩
  · obtain ⟨h1, h2⟩ := Search.mid_bounds hle hceil
    have hlt := s.mid.toNat_lt
    have hsize := t.size_le
    unfold maxSize at hsize
    rcases hcase with ⟨-, rfl⟩ | ⟨-, -, rfl⟩
    · by_cases hmid : s.mid.toNat = 0
      · -- `ceil = mid - 1` wraps around here; `floor <= mid` makes `floor` zero.
        have hwrap : (s.mid - 1).toNat = 2 ^ 64 - 1 := by
          rw [UInt64.toNat_sub, hmid]; rfl
        have hfloor : s.floor = 0 := by
          rw [← UInt64.toNat_inj]
          simp only [UInt64.reduceToNat]
          omega
        refine ⟨Or.inr ⟨hfloor, hwrap⟩, ?_⟩
        simp only [passesLeft, hwrap, if_pos hceil]
        rw [if_neg (by omega)]
        omega
      · have hpred := toNat_sub_one (x := s.mid) (by omega)
        have hceil' : (s.mid - 1).toNat < t.items.length := by omega
        refine ⟨Or.inl hceil', ?_⟩
        simp only [passesLeft, if_pos hceil, if_pos hceil']
        omega
    · have hsucc := toNat_add_one (x := s.mid) (by omega)
      refine ⟨Or.inl hceil, ?_⟩
      simp only [passesLeft, if_pos hceil, hsucc]
      omega
  · -- A pass after the wrap-around reads outside the table, so it does not go on.
    rw [getElem?_mid_of_wrapped hfloor hceil] at hitem
    cases hitem

theorem passesLeft_searchStart (hne : t.items ≠ []) :
    passesLeft t (searchStart t) < t.items.length + 2 := by
  have hstart := toNat_ceil_searchStart hne
  have hceil : (searchStart t).ceil.toNat < t.items.length := by omega
  simp only [passesLeft, if_pos hceil]
  omega

/-- The rule for the loop: the bound on its passes is no restriction. -/
theorem search_spec {Inv : Search → Prop} {Q : Except Fault (Int32 × Str) → Prop}
    (h : Loop.Spec (searchBody t ip country) Inv (passesLeft t) Q) (hne : t.items ≠ [])
    (start : Inv (searchStart t)) :
    ∃ r, Loop.run (searchBody t ip country) (t.items.length + 2) (searchStart t) = some r ∧
      search t ip country = r ∧ Q r := by
  obtain ⟨r, hr, hQ⟩ := h.run start (passesLeft_searchStart hne)
  exact ⟨r, hr, by rw [search, hr]; rfl, hQ⟩

/-- **The loop of `GetCountry` stops**, for every table and every address. -/
theorem search_terminates (hne : t.items ≠ []) (ip : UInt64) (country : Str) :
    ∃ r, Loop.run (searchBody t ip country) (t.items.length + 2) (searchStart t) = some r ∧
      search t ip country = r ∧ r ≠ .error .outOfFuel := by
  have hspec : Loop.Spec (searchBody t ip country) (Searching t) (passesLeft t)
      fun r => r ≠ .error .outOfFuel := by
    refine ⟨fun _ _ hs h => searching_next hs h, fun s r _ h => ?_⟩
    rcases searchBody_done h with ⟨-, rfl⟩ | ⟨-, -, rfl⟩ | ⟨-, item, -, -, -, rfl⟩ <;> simp
  have hstart := toNat_ceil_searchStart hne
  exact search_spec hspec hne (Or.inl (by omega))

/-! ### Addresses from the first range on -/

/-- The address does not lie below the first range. -/
def NotBelow (t : IPTable) (ip : UInt64) : Prop := ∀ first ∈ t.items.head?, first.start ≤ ip

/-- `ceil` is an index of the table, and `floor` is one or the size. -/
structure InTable (t : IPTable) (s : Search) : Prop where
  ceil_lt : s.ceil.toNat < t.items.length
  floor_le : s.floor.toNat ≤ t.items.length

theorem inTable_searchStart (hne : t.items ≠ []) : InTable t (searchStart t) where
  ceil_lt := by have := toNat_ceil_searchStart hne; omega
  floor_le := Nat.zero_le _

/-- **No wrap-around**: `ceil = mid - 1` is never executed at `mid = 0`, for there the address
is not below the range. -/
theorem update_exact (hip : NotBelow t ip)
    (h : searchBody t ip country s = .next s') :
    s.mid.toNat < t.items.length ∧
      ((s'.floor = s.floor ∧ s'.ceil.toNat + 1 = s.mid.toNat) ∨
        (s'.ceil = s.ceil ∧ s'.floor.toNat = s.mid.toNat + 1)) := by
  obtain ⟨hle, item, hitem, hcase⟩ := searchBody_next h
  have hmid := (List.getElem?_eq_some_iff.1 hitem).1
  have hsize := t.size_le
  unfold maxSize at hsize
  refine ⟨hmid, ?_⟩
  rcases hcase with ⟨hlt, rfl⟩ | ⟨-, -, rfl⟩
  · -- The entry at `mid = 0` would be the first range, and the address is not below that.
    have hpos : 0 < s.mid.toNat := by
      by_contra h0
      have hhead : t.items.head? = some item := by
        rwa [List.head?_eq_getElem?, ← Nat.eq_zero_of_not_pos h0]
      exact absurd hlt (UInt64.not_lt.2 (hip item hhead))
    refine Or.inl ⟨rfl, ?_⟩
    show (s.mid - 1).toNat + 1 = s.mid.toNat
    rw [toNat_sub_one hpos]
    omega
  · exact Or.inr ⟨rfl, toNat_add_one (by omega)⟩

theorem inTable_next (hip : NotBelow t ip) (hs : InTable t s)
    (h : searchBody t ip country s = .next s') : InTable t s' := by
  obtain ⟨hmid, ⟨hf, hc⟩ | ⟨hc, hf⟩⟩ := update_exact hip h
  · exact ⟨by omega, hf ▸ hs.floor_le⟩
  · exact ⟨hc ▸ hs.ceil_lt, by omega⟩

/-- The rule for searches from the first range on. Such a search does not leave the table; it
finds a range that contains the address, or else ends with `ceil < floor`, and then a further
invariant `I` of the loop may be used. -/
theorem search_rule {I : Search → Prop} {P : Prop} (hne : t.items ≠ []) (hip : NotBelow t ip)
    (start : I (searchStart t))
    (next : ∀ s s', I s → searchBody t ip country s = .next s' → I s')
    (done : ∀ s, I s → s.ceil < s.floor → P) :
    (P ∧ search t ip country = .ok (-1, country)) ∨
      ∃ item ∈ t.items, item.start ≤ ip ∧ ip ≤ item.stop ∧
        search t ip country = .ok (0, item.country) := by
  have hspec : Loop.Spec (searchBody t ip country) (fun s => InTable t s ∧ I s) (passesLeft t)
      fun r => (P ∧ r = .ok (-1, country)) ∨ ∃ item ∈ t.items,
        item.start ≤ ip ∧ ip ≤ item.stop ∧ r = .ok (0, item.country) := by
    refine ⟨fun s s' hs h => ?_, fun s r hs h => ?_⟩
    · exact ⟨⟨inTable_next hip hs.1 h, next s s' hs.2 h⟩,
        (searching_next (Or.inl hs.1.ceil_lt) h).2⟩
    · rcases searchBody_done h with ⟨hlt, hr⟩ | ⟨hle, hnone, -⟩ | ⟨-, item, hitem, hin⟩
      · exact Or.inl ⟨done s hs.2 hlt, hr⟩
      · have hmid := (Search.mid_bounds hle hs.1.ceil_lt).2
        rw [List.getElem?_eq_none_iff] at hnone
        exact absurd hs.1.ceil_lt (by omega)
      · exact Or.inr ⟨item, List.mem_of_getElem? hitem, hin⟩
  obtain ⟨r, -, hr, hQ⟩ := search_spec hspec hne ⟨inTable_searchStart hne, start⟩
  rw [hr]
  exact hQ

/-- The search does not leave the table. -/
theorem search_ok (hne : t.items ≠ []) (hip : NotBelow t ip) (country : Str) :
    search t ip country = .ok (-1, country) ∨
      ∃ item ∈ t.items, item.start ≤ ip ∧ ip ≤ item.stop ∧
        search t ip country = .ok (0, item.country) :=
  (search_rule (I := fun _ => True) hne hip trivial (fun _ _ _ _ => trivial)
    fun _ _ _ => trivial).imp_left And.right

/-- **An address above every bound is never resolved**, whatever the order of the table. -/
theorem search_unresolved (hne : t.items ≠ [])
    (hip : ∀ item ∈ t.items, item.start ≤ ip ∧ item.stop < ip) (country : Str) :
    search t ip country = .ok (-1, country) := by
  have hnb : NotBelow t ip := fun first hfirst => (hip first (List.mem_of_mem_head? hfirst)).1
  rcases search_ok hne hnb country with h | ⟨item, hitem, -, hle, -⟩
  · exact h
  · exact absurd (hip item hitem).2 (UInt64.not_lt.2 hle)

/-- The ranges that can still contain the address lie between `floor` and `ceil`. -/
def Between (t : IPTable) (ip : UInt64) (s : Search) : Prop :=
  ∀ (i : ℕ) (e : IntervalMap.Entry ℕ Str), t.entries[i]? = some e → e.Contains ip.toNat →
    s.floor.toNat ≤ i ∧ i ≤ s.ceil.toNat

theorem between_next (hasc : IntervalMap.Ascending t.entries) (hip : NotBelow t ip)
    (hb : Between t ip s) (h : searchBody t ip country s = .next s') :
    Between t ip s' := by
  intro i e he hcontains
  obtain ⟨hlo, hhi⟩ := hb i e he hcontains
  obtain ⟨-, item, hitem, hcase⟩ := searchBody_next h
  have hentry := IPTable.entries_getElem? hitem
  have hexact := (update_exact hip h).2
  rcases hcase with ⟨hlt, rfl⟩ | ⟨-, hlt, rfl⟩
  · -- The address lies below the range at `mid`: so does every range that contains it.
    have hi := hasc.index_lt hentry he (UInt64.lt_iff_toNat_lt.1 hlt) hcontains
    refine ⟨hlo, ?_⟩
    rcases hexact with ⟨-, hc⟩ | ⟨hc, -⟩
    · omega
    · exact hc ▸ hhi
  · have hi := hasc.lt_index hentry he (UInt64.lt_iff_toNat_lt.1 hlt) hcontains
    refine ⟨?_, hhi⟩
    rcases hexact with ⟨hf, -⟩ | ⟨-, hf⟩
    · exact hf ▸ hlo
    · omega

/-- **The binary search refines the lookup**: in an ascending table it finds the range that
contains the address, if there is one. -/
theorem search_refines_lookup (hne : t.items ≠ []) (hasc : IntervalMap.Ascending t.entries)
    (hip : NotBelow t ip) (country : Str) :
    search t ip country =
      .ok (match IntervalMap.lookup t.entries ip.toNat with
        | some found => (0, found)
        | none => (-1, country)) := by
  have hstart : Between t ip (searchStart t) := by
    intro i e he _
    have hi := (List.getElem?_eq_some_iff.1 he).1
    have hceil := toNat_ceil_searchStart hne
    rw [IPTable.entries, List.length_map] at hi
    exact ⟨Nat.zero_le _, by omega⟩
  have hdone : ∀ s, Between t ip s → s.ceil < s.floor →
      ∀ e ∈ t.entries, ¬ e.Contains ip.toNat := by
    intro s hb hlt e he hcontains
    obtain ⟨i, hi⟩ := List.mem_iff_getElem?.1 he
    obtain ⟨h1, h2⟩ := hb i e hi hcontains
    have := UInt64.lt_iff_toNat_lt.1 hlt
    omega
  rcases search_rule hne hip hstart (fun _ _ hb h => between_next hasc hip hb h) hdone
    with ⟨hnone, hr⟩ | ⟨item, hmem, hlo, hhi, hr⟩
  · rw [IntervalMap.lookup_eq_none hnone]
    exact hr
  · obtain ⟨i, hitem⟩ := List.mem_iff_getElem?.1 hmem
    have hcontains : item.entry.Contains ip.toNat :=
      ⟨UInt64.le_iff_toNat_le.1 hlo, UInt64.le_iff_toNat_le.1 hhi⟩
    rw [hasc.lookup_eq_some (IPTable.entries_getElem? hitem) hcontains]
    exact hr

/-! ### Addresses below the first range -/

/-- **Below the first range the search leaves the table**, if the ranges ascend: `ceil` moves
down to `0`, wraps around, and the next `mid` is out of bounds. -/
theorem search_below (hne : t.items ≠ []) (hip : ∀ item ∈ t.items, ip < item.start)
    (country : Str) : search t ip country = .error .indexOutOfRange := by
  have hspec : Loop.Spec (searchBody t ip country)
      (fun s => Searching t s ∧ s.floor = 0) (passesLeft t)
      fun r => r = .error .indexOutOfRange := by
    refine ⟨fun s s' hs h => ?_, fun s r hs h => ?_⟩
    · obtain ⟨hs', hlt⟩ := searching_next hs.1 h
      obtain ⟨-, item, hitem, ⟨-, rfl⟩ | ⟨hge, -, -⟩⟩ := searchBody_next h
      · exact ⟨⟨hs', hs.2⟩, hlt⟩
      · exact absurd (hip item (List.mem_of_getElem? hitem)) (UInt64.not_lt.2 hge)
    · rcases searchBody_done h with ⟨hlt, -⟩ | ⟨-, -, hr⟩ | ⟨-, item, hitem, hge, -⟩
      · -- `floor` is still zero, so no unsigned `ceil` is below it.
        rw [hs.2] at hlt
        exact absurd hlt (UInt64.not_lt.2 (UInt64.le_iff_toNat_le.2 (Nat.zero_le _)))
      · exact hr
      · exact absurd (hip item (List.mem_of_getElem? hitem)) (UInt64.not_lt.2 hge)
  obtain ⟨r, -, hr, rfl⟩ := search_spec hspec hne
    ⟨Or.inl (inTable_searchStart hne).ceil_lt, rfl⟩
  exact hr

/-! ### `GetCountry` -/

variable {lib : IPLib} {query : Str}

theorem getCountry_empty (h : lib.mIpTable.items = []) (query country : Str) :
    lib.getCountry query country = .ok (lib, -2, country) := by
  simp [getCountry, h]

theorem getCountry_eq (hne : lib.mIpTable.items ≠ []) (hip : ip2int query = .ok ip)
    (country : Str) :
    lib.getCountry query country =
      (search lib.mIpTable ip country).map fun r => (lib, r.1, r.2) := by
  simp only [getCountry, hne, hip, if_false, Fallible.ok_bind]
  cases search lib.mIpTable ip country <;> rfl

/-- A value of `2 ^ 32` or more is above every bound of a table of 32-bit bounds. -/
theorem getCountry_unresolved (hb : lib.mIpTable.Bounded) (hip : ip2int query = .ok ip)
    (hbig : 2 ^ 32 ≤ ip.toNat) (country : Str) :
    lib.getCountry query country =
      .ok (lib, if lib.mIpTable.items = [] then -2 else -1, country) := by
  by_cases hne : lib.mIpTable.items = []
  · rw [getCountry_empty hne, if_pos hne]
  · have hall : ∀ item ∈ lib.mIpTable.items, item.start ≤ ip ∧ item.stop < ip := by
      intro item hitem
      obtain ⟨hstart, hstop⟩ := hb item hitem
      rw [UInt64.le_iff_toNat_le, UInt64.lt_iff_toNat_lt]
      omega
    rw [getCountry_eq hne hip, search_unresolved hne hall, if_neg hne]
    rfl

/-- `GetCountry` returns or faults; it does not run on. -/
theorem getCountry_terminates (lib : IPLib) (query country : Str) :
    lib.getCountry query country ≠ .error .outOfFuel := by
  by_cases hne : lib.mIpTable.items = []
  · simp [getCountry_empty hne]
  · intro h
    cases hip : ip2int query with
    | error e =>
      obtain rfl := ip2int_error hip
      simp [getCountry, hne, hip] at h
    | ok ip =>
      obtain ⟨r, -, hr, hfuel⟩ := search_terminates hne ip country
      rw [getCountry_eq hne hip, hr] at h
      cases r with
      | error e =>
        simp only [Except.map, Except.error.injEq] at h
        exact hfuel (by rw [h])
      | ok r => cases h

end IPLib
end IpLib
end MongoUtils
