import MongoUtils.IpLib.GetCountry
import MongoUtils.Library.Bisection

/-!
# `IPLib::GetCountry` as a bisection

`floor` and `ceil` are the first and the last index of what is left of the table. The loop of
`GetCountry` is a bisection of this window, for every table, ascending or not: it wraps around
exactly where the bisection ends in the leftmost gap.

* `Window`: what `floor` and `ceil` say;
* `run_eq_bisect`: the loop computes the bisection, in logarithmically many passes;
* `entriesRead`: the entries that it reads, which are the probes of the bisection
  (`entriesRead_eq_probes`);
* `getCountry_bisects`: so does `GetCountry`;
* `getCountry_leaves_iff`: the queries that make it read outside the table;
* `getCountry_pushAll`: ranges that are pushed in order are found again, even if they overlap.
-/

namespace MongoUtils
namespace IpLib
namespace IPLib

open Bisection IntervalMap

variable {t : IPTable} {ip : UInt64} {country : Str} {s : Search} {lo hi n : ℕ}

/-- The window of the search consists of the indices `lo, …, hi - 1`, and `ceil` is the last one
of them; for an empty window at the beginning of the table it has wrapped around. -/
structure Window (t : IPTable) (s : Search) (lo hi : ℕ) : Prop where
  floor : s.floor.toNat = lo
  ceil : s.ceil.toNat = (hi + (2 ^ 64 - 1)) % 2 ^ 64
  le : lo ≤ hi
  size : hi ≤ t.items.length

/-- What `GetCountry` answers when the bisection ends so. -/
def answer (t : IPTable) (country : Str) : Outcome → Except Fault (Int32 × Str)
  | .found i =>
      match t.items[i]? with
      | some item => .ok (0, item.country)
      | none => .error .indexOutOfRange
  | .gap 0 => .error .indexOutOfRange
  | .gap (_ + 1) => .ok (-1, country)

theorem window_searchStart (hne : t.items ≠ []) :
    Window t (searchStart t) 0 t.items.length := by
  have hceil := toNat_ceil_searchStart hne
  have hsize := t.size_le
  unfold maxSize at hsize
  exact ⟨rfl, by omega, Nat.zero_le _, le_rfl⟩

/-- The index of the entry that a pass reads, if the test of the loop holds and there is such an
entry. -/
def readAt (t : IPTable) (s : Search) : Option ℕ :=
  if s.floor ≤ s.ceil ∧ s.mid.toNat < t.items.length then some s.mid.toNat else none

/-- The indices of the entries that the loop of `GetCountry` reads, one after the other. -/
def entriesRead (t : IPTable) (ip : UInt64) (country : Str) : List ℕ :=
  (Loop.states (searchBody t ip country) (t.items.length + 2) (searchStart t)).filterMap (readAt t)

/-- `mid` is in the middle of a window that is not empty. -/
theorem Window.mid (h : Window t s lo hi) (hlt : lo < hi) :
    s.floor ≤ s.ceil ∧ s.mid.toNat = (lo + (hi - 1)) / 2 := by
  obtain ⟨hfloor, hceil, -, hhi⟩ := h
  have hsize := t.size_le
  unfold maxSize at hsize
  rw [UInt64.le_iff_toNat_le]
  simp only [Search.mid, UInt64.toNat_div, UInt64.toNat_add, UInt64.reduceToNat]
  omega

theorem Window.readAt_eq (h : Window t s lo hi) (hlt : lo < hi) :
    readAt t s = some ((lo + (hi - 1)) / 2) := by
  obtain ⟨hle, hmid⟩ := h.mid hlt
  have hsize := h.size
  rw [readAt, hmid, if_pos ⟨hle, by omega⟩]

/-- With an empty window, no entry is read: the test fails, or `mid` is far behind the end. -/
theorem Window.readAt_eq_none (h : Window t s lo lo) : readAt t s = none := by
  obtain ⟨hfloor, hceil, -, hlo⟩ := h
  refine if_neg fun ⟨hle, hmid⟩ => ?_
  rw [UInt64.le_iff_toNat_le] at hle
  simp only [Search.mid, UInt64.toNat_div, UInt64.toNat_add, UInt64.reduceToNat] at hmid
  have hsize := t.size_le
  unfold maxSize at hsize
  omega

/-- **The last pass** of a search that has not found a range. -/
theorem searchBody_of_empty (h : Window t s lo lo) :
    searchBody t ip country s = .done (answer t country (.gap lo)) := by
  obtain ⟨hfloor, hceil, -, hlo⟩ := h
  have hsize := t.size_le
  unfold maxSize at hsize
  unfold searchBody
  cases lo with
  | zero =>
    -- `ceil` has wrapped around, and `mid` is far behind the end of the table.
    have hzero : s.floor = 0 := UInt64.toNat_inj.1 hfloor
    have hnone := getElem?_mid_of_wrapped (t := t) hzero hceil
    rw [if_pos (by rw [UInt64.le_iff_toNat_le]; omega)]
    simp only [hnone, answer]
  | succ k =>
    rw [if_neg (by rw [UInt64.le_iff_toNat_le]; omega)]
    rfl

theorem entry_contains {item : IPItem} :
    item.entry.Contains ip.toNat ↔ item.start ≤ ip ∧ ip ≤ item.stop := Iff.rfl

/-- **A pass over a window that is not empty** reads the entry in the middle, and leaves the half
of the window in which the comparison says that the address is. -/
theorem searchBody_window (ip : UInt64) (country : Str) (h : Window t s lo hi) (hlt : lo < hi) :
    ∃ item, t.items[(lo + (hi - 1)) / 2]? = some item ∧
      (item.entry.side ip.toNat = .eq →
        searchBody t ip country s = .done (.ok (0, item.country))) ∧
      (item.entry.side ip.toNat = .lt →
        ∃ s', searchBody t ip country s = .next s' ∧ Window t s' lo ((lo + (hi - 1)) / 2)) ∧
      (item.entry.side ip.toNat = .gt →
        ∃ s', searchBody t ip country s = .next s' ∧
          Window t s' ((lo + (hi - 1)) / 2 + 1) hi) := by
  obtain ⟨hle, hmid⟩ := h.mid hlt
  obtain ⟨hfloor, hceil, -, hhi⟩ := h
  have hsize := t.size_le
  unfold maxSize at hsize
  obtain ⟨item, hitem⟩ : ∃ item, t.items[(lo + (hi - 1)) / 2]? = some item :=
    ⟨_, List.getElem?_eq_getElem (by omega)⟩
  refine ⟨item, hitem, fun hside => ?_, fun hside => ?_, fun hside => ?_⟩ <;>
    unfold searchBody <;> rw [if_pos hle] <;> simp only [hmid, hitem]
  · rw [Entry.side_eq_iff, entry_contains] at hside
    rw [if_pos hside]
  · rw [Entry.side_lt_iff] at hside
    have hlt' := UInt64.lt_iff_toNat_lt.2 hside
    rw [if_neg fun hin => absurd hlt' (UInt64.not_lt.2 hin.1), if_pos hlt']
    refine ⟨_, rfl, hfloor, ?_, by omega, by omega⟩
    -- At `mid = 0` this wraps around, as `Window` has it for an empty window.
    show (s.mid - 1).toNat = _
    rw [UInt64.toNat_sub, hmid]
    simp only [UInt64.reduceToNat]
    omega
  · rw [Entry.side_gt_iff] at hside
    have hge := UInt64.le_iff_toNat_le.2 hside.1
    have hstop := UInt64.lt_iff_toNat_lt.2 hside.2
    rw [if_neg fun hin => absurd hstop (UInt64.not_lt.2 hin.2), if_neg (UInt64.not_lt.2 hge)]
    refine ⟨_, rfl, ?_, hceil, by omega, hhi⟩
    show (s.mid + 1).toNat = _
    rw [toNat_add_one (by omega), hmid]

/-- The loop and the bisection on an empty window. -/
theorem run_of_empty (h : Window t s lo lo) :
    Loop.run (searchBody t ip country) (n + 1) s =
        some (answer t country (bisect (side t.entries ip.toNat) lo lo)) ∧
      (Loop.states (searchBody t ip country) (n + 1) s).filterMap (readAt t) =
        probes (side t.entries ip.toNat) lo lo := by
  rw [Loop.run_done (searchBody_of_empty h), bisect_of_le le_rfl,
    Loop.states_done (searchBody_of_empty h), probes_of_le le_rfl]
  exact ⟨rfl, by simp [h.readAt_eq_none]⟩

/-- **The loop of `GetCountry` computes the bisection** of its window, and in `n + 1` passes if the
window has less than `2 ^ n` entries; the entries that it reads are the probes. -/
theorem run_eq_bisect (h : Window t s lo hi) (hn : hi - lo < 2 ^ n) :
    Loop.run (searchBody t ip country) (n + 1) s =
        some (answer t country (bisect (side t.entries ip.toNat) lo hi)) ∧
      (Loop.states (searchBody t ip country) (n + 1) s).filterMap (readAt t) =
        probes (side t.entries ip.toNat) lo hi := by
  -- Each pass leaves at most half of the window, which is empty after `n` of them.
  induction n generalizing s lo hi with
  | zero =>
    obtain rfl : lo = hi := by
      have := h.le
      omega
    exact run_of_empty h
  | succ n ih =>
    by_cases hlt : lo < hi
    · obtain ⟨item, hitem, heq, hleft, hright⟩ :=
        searchBody_window ip country h hlt
      have hside := side_of_getElem? (x := ip.toNat) (IPTable.entries_getElem? hitem)
      rw [pow_succ] at hn
      have hread := h.readAt_eq hlt
      cases hcmp : item.entry.side ip.toNat with
      | lt =>
        obtain ⟨s', hnext, hs'⟩ := hleft hcmp
        obtain ⟨hrun, hreads⟩ := ih hs' (by omega)
        rw [Loop.run_next hnext, bisect_of_lt hlt (hside.trans hcmp), Loop.states_next hnext,
          probes_of_lt hlt (hside.trans hcmp), List.filterMap_cons_some hread, hreads]
        exact ⟨hrun, rfl⟩
      | eq =>
        rw [Loop.run_done (heq hcmp), bisect_of_eq hlt (hside.trans hcmp),
          Loop.states_done (heq hcmp), probes_of_eq hlt (hside.trans hcmp),
          List.filterMap_cons_some hread]
        simp only [answer, hitem, List.filterMap_nil, and_self]
      | gt =>
        obtain ⟨s', hnext, hs'⟩ := hright hcmp
        obtain ⟨hrun, hreads⟩ := ih hs' (by omega)
        rw [Loop.run_next hnext, bisect_of_gt hlt (hside.trans hcmp), Loop.states_next hnext,
          probes_of_gt hlt (hside.trans hcmp), List.filterMap_cons_some hread, hreads]
        exact ⟨hrun, rfl⟩
    · obtain rfl : lo = hi := by
        have := h.le
        omega
      exact run_of_empty h

/-! ### `GetCountry` -/

variable {lib : IPLib} {query : Str} {e : Entry ℕ Str}

/-- An entry that the bisection finds is one of the table and contains the address. -/
theorem answer_found {i : ℕ} (country : Str) (h : bisect (side t.entries ip.toNat) 0 n = .found i) :
    ∃ item ∈ t.items, item.start ≤ ip ∧ ip ≤ item.stop ∧
      answer t country (.found i) = .ok (0, item.country) := by
  have hside := (side_of_bisect_eq_found h).2.2
  cases hitem : t.items[i]? with
  | none =>
    have hentry : t.entries[i]? = none := by simp [IPTable.entries, hitem]
    rw [side, hentry] at hside
    cases hside
  | some item =>
    rw [side_of_getElem? (IPTable.entries_getElem? hitem), Entry.side_eq_iff, entry_contains] at hside
    refine ⟨item, List.mem_of_getElem? hitem, hside.1, hside.2, ?_⟩
    simp only [answer, hitem]

theorem length_lt_two_pow (t : IPTable) : t.items.length - 0 < 2 ^ (t.items.length + 1) :=
  Nat.lt_two_pow_self.trans (Nat.pow_lt_pow_right (by decide) (Nat.lt_succ_self _))

theorem search_eq_answer (hne : t.items ≠ []) (ip : UInt64) (country : Str) :
    search t ip country = answer t country (bisect (side t.entries ip.toNat) 0 t.items.length) := by
  unfold search
  rw [(run_eq_bisect (window_searchStart hne) (length_lt_two_pow t)).1]
  rfl

/-- **What the loop reads are the probes** of the bisection of the table. -/
theorem entriesRead_eq_probes (hne : t.items ≠ []) (ip : UInt64) (country : Str) :
    entriesRead t ip country = probes (side t.entries ip.toNat) 0 t.items.length :=
  (run_eq_bisect (window_searchStart hne) (length_lt_two_pow t)).2

/-- **`GetCountry` is a bisection**, whatever the order of the table. It answers as the bisection of
the table ends; what it finds is an entry that contains the address; the entries that its loop reads are
the probes of the bisection; and over a table of less than `2 ^ n` entries it reads at most `n` of
them and makes at most `n + 1` passes. -/
theorem getCountry_bisects (lib : IPLib) (hne : lib.mIpTable.items ≠ []) (query : Str)
    (ip : UInt64) (hip : ip2int query = .ok ip) (country : Str) :
    lib.getCountry query country =
      (answer lib.mIpTable country
        (bisect (side lib.mIpTable.entries ip.toNat) 0 lib.mIpTable.items.length)).map
          (fun r => (lib, r.1, r.2)) ∧
    (∀ found, lib.getCountry query country = .ok (lib, 0, found) →
      ∃ item ∈ lib.mIpTable.items, item.start ≤ ip ∧ ip ≤ item.stop ∧ item.country = found) ∧
    entriesRead lib.mIpTable ip country =
      probes (side lib.mIpTable.entries ip.toNat) 0 lib.mIpTable.items.length ∧
    ∀ n, lib.mIpTable.items.length < 2 ^ n → (entriesRead lib.mIpTable ip country).length ≤ n ∧
      ∃ r, Loop.run (searchBody lib.mIpTable ip country) (n + 1) (searchStart lib.mIpTable) =
          some r ∧ search lib.mIpTable ip country = r := by
  have hanswer := search_eq_answer hne ip country
  have hreads := entriesRead_eq_probes hne ip country
  refine ⟨by rw [getCountry_eq hne hip, hanswer], fun found h => ?_, hreads, fun n hn => ?_⟩
  · rw [getCountry_eq hne hip, hanswer, Fallible.map_eq_ok] at h
    obtain ⟨r, hr, hrep⟩ := h
    cases hend : bisect (side lib.mIpTable.entries ip.toNat) 0 lib.mIpTable.items.length with
    | found i =>
      rw [hend] at hr
      obtain ⟨item, hmem, hlo, hhi, hitem⟩ := answer_found country hend
      rw [hitem] at hr
      cases hr
      cases hrep
      exact ⟨item, hmem, hlo, hhi, rfl⟩
    | gap k =>
      rw [hend] at hr
      cases k with
      | zero => cases hr
      | succ k =>
        cases hr
        cases hrep
  · rw [hreads]
    exact ⟨length_probes_le _ _ hn, _, (run_eq_bisect (window_searchStart hne) hn).1, hanswer⟩

/-- Two ranges in the wrong order. -/
def swapped : IPLib :=
  ⟨⟨[⟨0x02000000, 0x020000FF, ascii "BB"⟩, ⟨0x01000000, 0x010000FF, ascii "AA"⟩], by decide⟩⟩

/-- In the table of these two, `2.0.0.7` is found, and the first entry is the only one that is
read. -/
theorem getCountry_bisects_swapped :
    swapped.getCountry (ascii "2.0.0.7") [] = .ok (swapped, 0, ascii "BB") ∧
      entriesRead swapped.mIpTable 0x02000007 [] = [0] := by
  have hside : side swapped.mIpTable.entries 0x02000007 0 = .eq := by decide
  obtain ⟨hget, -, hreads, -⟩ := getCountry_bisects swapped (by decide) (ascii "2.0.0.7") 0x02000007
    (by decide +kernel) []
  constructor
  · rw [hget, bisect_of_eq (by decide) hside]
    rfl
  · exact hreads.trans (probes_of_eq (by decide) hside)

/-- **When `GetCountry` reads outside the table**, whatever its order: exactly if the address lies
below the start of every entry that the search looks at while it goes to the left, which are at
most `n` if the table has less than `2 ^ n` entries. -/
theorem getCountry_leaves_iff (lib : IPLib) (query : Str) (ip : UInt64)
    (hip : ip2int query = .ok ip) (country : Str) :
    (lib.getCountry query country = .error .indexOutOfRange ↔
      lib.mIpTable.items ≠ [] ∧
        ∀ m ∈ leftmost 0 lib.mIpTable.items.length, ∀ item ∈ lib.mIpTable.items[m]?,
          ip < item.start) ∧
    ∀ n, lib.mIpTable.items.length < 2 ^ n →
      (leftmost 0 lib.mIpTable.items.length).length ≤ n := by
  refine ⟨?_, fun n hn => length_probes_le _ _ hn⟩
  by_cases hne : lib.mIpTable.items = []
  · rw [getCountry_empty hne]
    simp [hne]
  · -- The search leaves the table exactly where the bisection ends in the leftmost gap.
    have hsides : (∀ m ∈ leftmost 0 lib.mIpTable.items.length, ∀ item ∈ lib.mIpTable.items[m]?,
        ip < item.start) ↔
        bisect (side lib.mIpTable.entries ip.toNat) 0 lib.mIpTable.items.length = .gap 0 := by
      rw [bisect_eq_gap_iff (Nat.zero_le _)]
      refine forall₂_congr fun m _ => ?_
      rw [side, IPTable.entries, List.getElem?_map]
      cases lib.mIpTable.items[m]? with
      | none => simp
      | some item =>
        simp only [Option.mem_some_iff, forall_eq', Option.map_some, Entry.side_lt_iff,
          UInt64.lt_iff_toNat_lt, IPItem.entry]
    rw [hsides, getCountry_eq hne hip, search_eq_answer hne]
    cases hend : bisect (side lib.mIpTable.entries ip.toNat) 0 lib.mIpTable.items.length with
    | found i =>
      obtain ⟨item, -, -, -, hitem⟩ := answer_found country hend
      rw [hitem]
      simp [Except.map]
    | gap k =>
      cases k with
      | zero => simp [answer, Except.map, hne]
      | succ k => simp [answer, Except.map]

/-- So `1.0.0.7` is not found in the table of two ranges in the wrong order, although the second one
contains it: the search reads outside the table. -/
theorem getCountry_leaves_iff_swapped :
    swapped.getCountry (ascii "1.0.0.7") [] = .error .indexOutOfRange := by
  refine (getCountry_leaves_iff swapped (ascii "1.0.0.7") 0x01000007 (by decide +kernel) []).1.2
    ⟨by decide, ?_⟩
  have hleft : leftmost 0 swapped.mIpTable.items.length = [0] := by
    rw [leftmost_of_lt (by decide), leftmost_of_le (by decide)]
    rfl
  rw [hleft]
  decide

/-! ### Pushing ranges -/

/-- The arguments of a call of `PushItem`. -/
structure Range where
  start : Quad
  stop : Quad
  country : Str

/-- The range as an interval of addresses. -/
def Range.entry (r : Range) : Entry ℕ Str := ⟨r.start.address, r.stop.address, r.country⟩

/-- A call of `PushItem` for each of the ranges. -/
def pushAll (lib : IPLib) (rs : List Range) : Except Fault IPLib :=
  rs.foldlM (fun lib r => lib.pushItem r.start.text r.stop.text r.country) lib

theorem pushItem_range (lib : IPLib) (r : Range) (hroom : lib.mIpTable.items.length < maxSize) :
    ∃ lib', lib.pushItem r.start.text r.stop.text r.country = .ok lib' ∧
      lib'.mIpTable.items.length = lib.mIpTable.items.length + 1 ∧
      lib'.mIpTable.entries = lib.mIpTable.entries ++ [r.entry] := by
  obtain ⟨start, hstart, hstart_eq⟩ := ip2int_quad r.start
  obtain ⟨stop, hstop, hstop_eq⟩ := ip2int_quad r.stop
  obtain ⟨t, ht, hitems⟩ := IPTable.pushBack_of_lt hroom ⟨narrow start, narrow stop, r.country⟩
  refine ⟨⟨t⟩, pushItem_eq_ok.2 ⟨start, stop, hstart, hstop, ht⟩, by simp [hitems], ?_⟩
  have hstart_lt : start.toNat < 2 ^ 32 := hstart_eq ▸ r.start.address_lt
  have hstop_lt : stop.toNat < 2 ^ 32 := hstop_eq ▸ r.stop.address_lt
  simp [IPTable.entries, hitems, IPItem.entry, Range.entry, narrow_of_lt hstart_lt,
    narrow_of_lt hstop_lt, hstart_eq, hstop_eq]

/-- Pushing ranges appends them, while there is room. -/
theorem pushAll_entries (lib : IPLib) {rs : List Range}
    (hroom : lib.mIpTable.items.length + rs.length ≤ maxSize) :
    ∃ lib', lib.pushAll rs = .ok lib' ∧
      lib'.mIpTable.entries = lib.mIpTable.entries ++ rs.map Range.entry := by
  unfold pushAll
  induction rs generalizing lib with
  | nil => exact ⟨lib, rfl, by simp⟩
  | cons r rs ih =>
    rw [List.length_cons] at hroom
    obtain ⟨lib₁, hpush, hlen, hentries⟩ := pushItem_range lib r (by omega)
    obtain ⟨lib', hall, hentries'⟩ := ih lib₁ (by omega)
    refine ⟨lib', ?_, by simp [hentries', hentries]⟩
    rw [List.foldlM_cons, hpush]
    exact hall

/-- What `GetCountry` answers over a sorted table. -/
theorem getCountry_sorted (hsorted : Sorted lib.mIpTable.entries) (hip : ip2int query = .ok ip)
    (country : Str) :
    (∃ e ∈ lib.mIpTable.entries, e.Contains ip.toNat ∧
      lib.getCountry query country = .ok (lib, 0, e.val)) ∨
    ((∀ e ∈ lib.mIpTable.entries, ¬ e.Contains ip.toNat) ∧
      lib.getCountry query country =
        if lib.mIpTable.entries = [] then .ok (lib, -2, country)
        else if ∀ e ∈ lib.mIpTable.entries, ip.toNat < e.lo then .error .indexOutOfRange
        else .ok (lib, -1, country)) := by
  by_cases hne : lib.mIpTable.items = []
  · have hentries : lib.mIpTable.entries = [] := by simp [IPTable.entries, hne]
    rw [getCountry_empty hne, hentries]
    exact Or.inr ⟨by simp, rfl⟩
  · have hentries : lib.mIpTable.entries ≠ [] := by simpa [IPTable.entries] using hne
    have hlen : lib.mIpTable.entries.length = lib.mIpTable.items.length := by
      simp [IPTable.entries]
    rw [getCountry_eq hne hip, search_eq_answer hne, ← hlen, if_neg hentries]
    cases hend : bisect (side lib.mIpTable.entries ip.toNat) 0 lib.mIpTable.entries.length with
    | found i =>
      obtain ⟨item, hmem, hlo, hhi, hitem⟩ := answer_found country hend
      refine Or.inl ⟨item.entry, List.mem_map_of_mem hmem, entry_contains.2 ⟨hlo, hhi⟩, ?_⟩
      rw [hitem]
      rfl
    | gap k =>
      obtain ⟨hnone, hzero⟩ := hsorted.bisect_eq_gap hend
      refine Or.inr ⟨hnone, ?_⟩
      cases k with
      | zero =>
        rw [if_pos (hzero.1 rfl)]
        rfl
      | succ k =>
        rw [if_neg fun h => absurd (hzero.2 h) (Nat.succ_ne_zero k)]
        rfl

/-- **Ranges pushed in order are found again**, even if they overlap: if the starts ascend and the
stops ascend, `GetCountry` answers with the country of a range that contains the address whenever
there is one. Otherwise it answers `-1`, but reads outside the table below all ranges. -/
theorem getCountry_pushAll (lib : IPLib) (rs : List Range)
    (hroom : lib.mIpTable.items.length + rs.length ≤ maxSize)
    (hsorted : Sorted (lib.mIpTable.entries ++ rs.map Range.entry)) :
    ∃ lib', lib.pushAll rs = .ok lib' ∧
      lib'.mIpTable.entries = lib.mIpTable.entries ++ rs.map Range.entry ∧
      ∀ (q : Quad) (country : Str),
        (∃ e ∈ lib'.mIpTable.entries, e.Contains q.address ∧
          lib'.getCountry q.text country = .ok (lib', 0, e.val)) ∨
        ((∀ e ∈ lib'.mIpTable.entries, ¬ e.Contains q.address) ∧
          lib'.getCountry q.text country =
            if lib'.mIpTable.entries = [] then .ok (lib', -2, country)
            else if ∀ e ∈ lib'.mIpTable.entries, q.address < e.lo then .error .indexOutOfRange
            else .ok (lib', -1, country)) := by
  obtain ⟨lib', hpush, hentries⟩ := pushAll_entries lib hroom
  refine ⟨lib', hpush, hentries, fun q country => ?_⟩
  obtain ⟨ip, hip, haddr⟩ := ip2int_quad q
  rw [← haddr]
  exact getCountry_sorted (hentries ▸ hsorted) hip country

/-- Of the overlapping ranges from `1.0.0.0` to `1.0.0.9` and from `1.0.0.5` to `1.0.0.12`, one is
found for `1.0.0.7`. -/
theorem getCountry_pushAll_overlapping :
    ∃ lib', new.pushAll [⟨.ofFin 1 0 0 0, .ofFin 1 0 0 9, ascii "AA"⟩,
        ⟨.ofFin 1 0 0 5, .ofFin 1 0 0 12, ascii "BB"⟩] = .ok lib' ∧
      ∃ found, lib'.getCountry (ascii "1.0.0.7") [] = .ok (lib', 0, found) := by
  obtain ⟨lib', hpush, hentries, hget⟩ := getCountry_pushAll new
    [⟨.ofFin 1 0 0 0, .ofFin 1 0 0 9, ascii "AA"⟩, ⟨.ofFin 1 0 0 5, .ofFin 1 0 0 12, ascii "BB"⟩]
    (by decide) (List.pairwise_pair.2 (by decide))
  refine ⟨lib', hpush, ?_⟩
  rcases hget (.ofFin 1 0 0 7) [] with ⟨e, -, -, h⟩ | ⟨hnone, -⟩
  · exact ⟨e.val, h⟩
  · refine absurd ?_ (hnone ⟨0x01000000, 0x01000009, ascii "AA"⟩ ?_)
    · constructor <;> decide
    · rw [hentries]
      exact List.mem_append_right _ (List.mem_cons_self)

end IPLib
end IpLib
end MongoUtils
