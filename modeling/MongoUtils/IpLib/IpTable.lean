import MongoUtils.IpLib.Ip2Int
import MongoUtils.Library.Fallible
import MongoUtils.Library.IntervalMap
import MongoUtils.Library.Loop

/-!
# `ip_lib/ip_table.h`: `IPLib`

The table, the class around it and its operations. `uint64_t` and `size_t` are `UInt64`
(the code is for a 64-bit platform) and `int` is `Int32`, so that the arithmetic of the
binary search wraps around where the code's does.

* `IPItem`, `IPTable`: a range and the vector of ranges, which `max_size()` bounds;
* `fileLines`: the lines that `std::getline` delivers;
* `loadDict`, `getCountry`, `pushItem`, `cleanUp`: the operations of `IPLib`;
* `Reachable`: the objects that a sequence of operations can produce. Every bound in the
  table of such an object is below `2 ^ 32` (`Reachable.bounded`).
-/

namespace MongoUtils
namespace IpLib

/-- `IPItem`; `stop` is the field `end`. -/
structure IPItem where
  start : UInt64
  stop : UInt64
  country : Str
  deriving DecidableEq, Repr

/-- A range as an interval of addresses. -/
def IPItem.entry (item : IPItem) : IntervalMap.Entry ℕ Str :=
  ⟨item.start.toNat, item.stop.toNat, item.country⟩

/-- `std::vector<IPItem>::max_size()`: an `IPItem` takes at least 24 bytes. -/
def maxSize : ℕ := (2 ^ 64 - 1) / 24

/-- `IPTable`: a `std::vector<IPItem>`. -/
structure IPTable where
  items : List IPItem
  size_le : items.length ≤ maxSize
  deriving DecidableEq

namespace IPTable

@[ext] theorem ext {t t' : IPTable} (h : t.items = t'.items) : t = t' := by
  cases t; cases t'; cases h; rfl

/-- The empty vector. -/
def empty : IPTable := ⟨[], Nat.zero_le _⟩

/-- `m_ip_table.push_back(ip_item)`. -/
def pushBack (t : IPTable) (item : IPItem) : Except Fault IPTable :=
  if h : t.items.length < maxSize then
    .ok ⟨t.items ++ [item], by simpa using h⟩
  else .error .lengthError

/-- `m_ip_table.size()`. -/
def size (t : IPTable) : UInt64 := UInt64.ofNat t.items.length

/-- The table as a list of intervals. -/
def entries (t : IPTable) : List (IntervalMap.Entry ℕ Str) := t.items.map IPItem.entry

theorem entries_getElem? {t : IPTable} {item : IPItem} {i : ℕ} (h : t.items[i]? = some item) :
    t.entries[i]? = some item.entry := by
  rw [entries, List.getElem?_map, h]
  rfl

theorem pushBack_eq_ok {t t' : IPTable} {item : IPItem} :
    t.pushBack item = .ok t' ↔ t'.items = t.items ++ [item] := by
  unfold pushBack
  split_ifs with hlt
  · rw [Except.ok.injEq]
    exact ⟨fun h => h ▸ rfl, fun h => (ext h).symm⟩
  · have hle := t'.size_le
    refine ⟨fun h => (by cases h), fun h => ?_⟩
    rw [h, List.length_append, List.length_singleton] at hle
    omega

theorem pushBack_of_lt {t : IPTable} (h : t.items.length < maxSize) (item : IPItem) :
    ∃ t', t.pushBack item = .ok t' ∧ t'.items = t.items ++ [item] :=
  ⟨⟨t.items ++ [item], by simpa using h⟩, by simp [pushBack, h], rfl⟩

/-- The entries of a table can be cut short. -/
theorem exists_prefix {t : IPTable} {xs ys : List IPItem} (h : t.items = xs ++ ys) :
    ∃ t' : IPTable, t'.items = xs :=
  ⟨⟨xs, by
    have := t.size_le
    rw [h, List.length_append] at this
    omega⟩, rfl⟩

/-- A table of one range. -/
def single (item : IPItem) : IPTable := ⟨[item], by unfold maxSize; simp⟩

theorem pushBack_empty (item : IPItem) : empty.pushBack item = .ok (single item) := by
  simp [pushBack, empty, single, maxSize]

theorem toNat_size (t : IPTable) : t.size.toNat = t.items.length := by
  have := t.size_le
  unfold maxSize at this
  rw [size, UInt64.toNat_ofNat']
  omega

end IPTable

/-- `fields[i]` -/
def fieldAt (fields : List Str) (i : ℕ) : Except Fault Str :=
  match fields[i]? with
  | some field => .ok field
  | none => .error .indexOutOfRange

/-- `uint32_t x = ...`, stored in a `uint64_t`. -/
def narrow (x : UInt64) : UInt64 := x.toUInt32.toUInt64

theorem toNat_narrow (x : UInt64) : (narrow x).toNat = x.toNat % 2 ^ 32 := by
  simp [narrow]

theorem narrow_of_lt {x : UInt64} (h : x.toNat < 2 ^ 32) : narrow x = x := by
  rw [← UInt64.toNat_inj, toNat_narrow, Nat.mod_eq_of_lt h]

/-! ### Files -/

/-- The successive values of `line` in `while (std::getline(fin, line))`; `line` holds the bytes
read since the last newline. A last line without a newline counts unless it is empty. -/
def fileLinesFrom : Str → Str → List Str
  | line, [] => if line = [] then [] else [line]
  | line, c :: rest => if c = 10 then line :: fileLinesFrom [] rest
      else fileLinesFrom (line ++ [c]) rest

/-- The lines of a file with this content. -/
def fileLines (content : Str) : List Str := fileLinesFrom [] content

theorem fileLinesFrom_append {w : Str} (hw : 10 ∉ w) (line rest : Str) :
    fileLinesFrom line (w ++ 10 :: rest) = (line ++ w) :: fileLinesFrom [] rest := by
  induction w generalizing line with
  | nil => simp [fileLinesFrom]
  | cons c w ih =>
    simp only [List.mem_cons, not_or] at hw
    rw [List.cons_append, fileLinesFrom, if_neg (Ne.symm hw.1), ih hw.2]
    simp

theorem fileLinesFrom_last {w : Str} (hw : 10 ∉ w) (line : Str) :
    fileLinesFrom line w = if line ++ w = [] then [] else [line ++ w] := by
  induction w generalizing line with
  | nil => simp [fileLinesFrom]
  | cons c w ih =>
    simp only [List.mem_cons, not_or] at hw
    rw [fileLinesFrom, if_neg (Ne.symm hw.1), ih hw.2]
    simp

theorem fileLines_newline {l : Str} (hl : 10 ∉ l) (rest : Str) :
    fileLines (l ++ 10 :: rest) = l :: fileLines rest := by
  rw [fileLines, fileLinesFrom_append hl, List.nil_append, fileLines]

theorem fileLines_last {l : Str} (hl : 10 ∉ l) : fileLines l = if l = [] then [] else [l] := by
  rw [fileLines, fileLinesFrom_last hl, List.nil_append]

/-- Induction on a text, line by line. -/
theorem text_induction {motive : Str → Prop} (last : ∀ l, 10 ∉ l → motive l)
    (newline : ∀ l rest, 10 ∉ l → motive rest → motive (l ++ 10 :: rest)) (text : Str) :
    motive text := by
  induction hn : text.length using Nat.strong_induction_on generalizing text with
  | _ n ih =>
    by_cases hmem : 10 ∈ text
    · obtain ⟨l, rest, rfl, hl⟩ := List.eq_append_cons_of_mem hmem
      refine newline l rest hl (ih _ ?_ rest rfl)
      rw [← hn, List.length_append, List.length_cons]
      omega
    · exact last text hmem

theorem newline_notMem_fileLines {text l : Str} (h : l ∈ fileLines text) : 10 ∉ l := by
  induction text using text_induction with
  | last t ht =>
    rw [fileLines_last ht] at h
    split_ifs at h
    · cases h
    · rwa [List.mem_singleton.1 h]
  | newline t rest ht ih =>
    rw [fileLines_newline ht, List.mem_cons] at h
    rcases h with rfl | h
    · exact ht
    · exact ih h

/-- The lines that an `std::ifstream` for a path delivers: none if it cannot be opened. -/
def dictLines (file : Option Str) : List Str := (file.map fileLines).getD []

/-- A field as it stands in a line: not empty, and without a NUL, a newline and the separator. -/
def Plain (f : Str) : Prop := f ≠ [] ∧ 0 ∉ f ∧ 10 ∉ f ∧ 124 ∉ f

instance : DecidablePred Plain := fun f =>
  inferInstanceAs (Decidable (f ≠ [] ∧ 0 ∉ f ∧ 10 ∉ f ∧ 124 ∉ f))

section Fields

variable {fields : List Str} (h : ∀ f ∈ fields, Plain f)

include h

theorem newline_notMem_fields : 10 ∉ [124].intercalate fields :=
  notMem_intercalate (by decide) fun f hf => (h f hf).2.2.1

theorem zero_notMem_fields : 0 ∉ [124].intercalate fields :=
  notMem_intercalate (by decide) fun f hf => (h f hf).2.1

theorem splitString_fields : splitString ([124].intercalate fields) [] 124 = .ok fields :=
  splitString_intercalate (by decide) (fun f hf => (h f hf).1) (fun f hf => (h f hf).2.2.2)
    fun f hf => (h f hf).2.1

end Fields

/-! ### The operations -/

/-- The class `IPLib`. -/
@[ext] structure IPLib where
  mIpTable : IPTable
  deriving DecidableEq

namespace IPLib

/-- `IPLib()` -/
def new : IPLib := ⟨IPTable.empty⟩

/-- The body of the loop of `LoadDict`. -/
def loadLine (t : IPTable) (line : Str) : Except Fault IPTable := do
  let fields ← splitString line [] 124
  let start ← ip2int (← fieldAt fields 0)
  let stop ← ip2int (← fieldAt fields 1)
  let country ← fieldAt fields 2
  t.pushBack ⟨narrow start, narrow stop, country⟩

/-- `LoadDict(dict)`, for the file that the path names. -/
def loadDict (_lib : IPLib) (file : Option Str) : Except Fault (IPLib × Int32) := do
  let t ← (dictLines file).foldlM loadLine IPTable.empty
  return (⟨t⟩, 0)

/-- `floor` and `ceil` of `GetCountry`. -/
structure Search where
  floor : UInt64
  ceil : UInt64

/-- `mid = (floor + ceil) / 2` -/
def Search.mid (s : Search) : UInt64 := (s.floor + s.ceil) / 2

/-- One pass through the loop of `GetCountry`; its result is the return value and `country`. -/
def searchBody (t : IPTable) (ipInt : UInt64) (country : Str) (s : Search) :
    Loop.Iter Search (Except Fault (Int32 × Str)) :=
  if s.floor ≤ s.ceil then
    let mid := s.mid
    match t.items[mid.toNat]? with
    | none => .done (.error .indexOutOfRange)
    | some item =>
        if item.start ≤ ipInt ∧ ipInt ≤ item.stop then .done (.ok (0, item.country))
        else if ipInt < item.start then .next { s with ceil := mid - 1 }
        else .next { s with floor := mid + 1 }
  else .done (.ok (-1, country))

/-- `floor` and `ceil` before the loop. -/
def searchStart (t : IPTable) : Search := ⟨0, t.size - 1⟩

/-- The loop of `GetCountry`, which never takes more passes than this
(`IPLib.getCountry_terminates`). -/
def search (t : IPTable) (ipInt : UInt64) (country : Str) : Except Fault (Int32 × Str) :=
  (Loop.run (searchBody t ipInt country) (t.items.length + 2) (searchStart t)).getD
    (.error .outOfFuel)

/-- `GetCountry(ip, country)`: the object, the return value and `country` afterwards. -/
def getCountry (lib : IPLib) (ip country : Str) : Except Fault (IPLib × Int32 × Str) := do
  if lib.mIpTable.items = [] then return (lib, -2, country)
  let ipInt ← ip2int ip
  let (code, country) ← search lib.mIpTable ipInt country
  return (lib, code, country)

/-- `PushItem(start, end, country)` -/
def pushItem (lib : IPLib) (start stop country : Str) : Except Fault IPLib := do
  let start ← ip2int start
  let stop ← ip2int stop
  let t ← lib.mIpTable.pushBack ⟨narrow start, narrow stop, country⟩
  return ⟨t⟩

/-- `CleanUp()` -/
def cleanUp (_lib : IPLib) : IPLib := ⟨IPTable.empty⟩

/-! ### What the operations do when they return -/

open Fallible

variable {lib lib' : IPLib} {t t' : IPTable}

theorem fieldAt_eq_ok {fields : List Str} {i : ℕ} {field : Str} :
    fieldAt fields i = .ok field ↔ fields[i]? = some field := by
  unfold fieldAt
  cases fields[i]? <;> simp

/-- Loading a line appends the entry made of its first three fields. -/
theorem loadLine_eq_ok {line : Str} :
    loadLine t line = .ok t' ↔
      ∃ f0 f1 f2 rest start stop, splitString line [] 124 = .ok (f0 :: f1 :: f2 :: rest) ∧
        ip2int f0 = .ok start ∧ ip2int f1 = .ok stop ∧
        t.pushBack ⟨narrow start, narrow stop, f2⟩ = .ok t' := by
  simp only [loadLine, bind_eq_ok, fieldAt_eq_ok]
  constructor
  · rintro ⟨fields, hs, f0, h0, start, hstart, f1, h1, stop, hstop, f2, h2, hpush⟩
    match fields, h0, h1, h2 with
    | g0 :: g1 :: g2 :: rest, h0, h1, h2 =>
      simp only [List.getElem?_cons_zero, List.getElem?_cons_succ, Option.some.injEq] at h0 h1 h2
      subst h0 h1 h2
      exact ⟨g0, g1, g2, rest, start, stop, hs, hstart, hstop, hpush⟩
  · rintro ⟨f0, f1, f2, rest, start, stop, hs, hstart, hstop, hpush⟩
    exact ⟨_, hs, f0, rfl, start, hstart, f1, rfl, stop, hstop, f2, rfl, hpush⟩

theorem loadDict_eq_ok {file : Option Str} {code : Int32} :
    lib.loadDict file = .ok (lib', code) ↔
      (dictLines file).foldlM loadLine IPTable.empty = .ok lib'.mIpTable ∧ code = 0 := by
  simp only [loadDict, bind_eq_ok, pure_eq_ok, Except.ok.injEq, Prod.mk.injEq]
  constructor
  · rintro ⟨t, ht, rfl, rfl⟩
    exact ⟨ht, rfl⟩
  · rintro ⟨ht, rfl⟩
    exact ⟨_, ht, rfl, rfl⟩

/-- `PushItem` appends the entry with these bounds. -/
theorem pushItem_eq_ok {start stop country : Str} :
    lib.pushItem start stop country = .ok lib' ↔
      ∃ s e, ip2int start = .ok s ∧ ip2int stop = .ok e ∧
        lib.mIpTable.pushBack ⟨narrow s, narrow e, country⟩ = .ok lib'.mIpTable := by
  simp only [pushItem, bind_eq_ok, pure_eq_ok, Except.ok.injEq]
  constructor
  · rintro ⟨s, hs, e, he, t, ht, rfl⟩
    exact ⟨s, e, hs, he, ht⟩
  · rintro ⟨s, e, hs, he, ht⟩
    exact ⟨s, hs, e, he, _, ht, rfl⟩

/-- `GetCountry` does not change the object. -/
theorem getCountry_eq_ok {ip country found : Str} {code : Int32}
    (h : lib.getCountry ip country = .ok (lib', code, found)) : lib' = lib := by
  rw [getCountry] at h
  split_ifs at h
  · cases h
    rfl
  · simp only [bind_eq_ok] at h
    obtain ⟨_, _, _, _, h⟩ := h
    cases h
    rfl

/-! ### Reachable objects -/

/-- The objects that a sequence of calls of `LoadDict`, `PushItem` and `CleanUp` produces. -/
inductive Reachable : IPLib → Prop
  | new : Reachable new
  | loadDict {lib lib' : IPLib} {file : Option Str} {code : Int32} :
      Reachable lib → lib.loadDict file = .ok (lib', code) → Reachable lib'
  | pushItem {lib lib' : IPLib} {start stop country : Str} :
      Reachable lib → lib.pushItem start stop country = .ok lib' → Reachable lib'
  | cleanUp {lib : IPLib} : Reachable lib → Reachable lib.cleanUp

end IPLib

/-- Every bound in the table is a 32-bit value. -/
def IPTable.Bounded (t : IPTable) : Prop :=
  ∀ item ∈ t.items, item.start.toNat < 2 ^ 32 ∧ item.stop.toNat < 2 ^ 32

theorem IPTable.bounded_empty : IPTable.empty.Bounded := by simp [Bounded, empty]

theorem IPTable.Bounded.pushBack {t t' : IPTable} (ht : t.Bounded) {start stop : UInt64}
    {country : Str} (h : t.pushBack ⟨narrow start, narrow stop, country⟩ = .ok t') :
    t'.Bounded := by
  intro item hitem
  rw [pushBack_eq_ok.1 h, List.mem_append, List.mem_singleton] at hitem
  rcases hitem with hitem | rfl
  · exact ht item hitem
  · simp only [toNat_narrow]
    omega

/-- **The bounds of a reachable table are 32-bit values**: both loaders narrow them. -/
theorem IPLib.Reachable.bounded {lib : IPLib} (h : lib.Reachable) : lib.mIpTable.Bounded := by
  induction h with
  | new => exact IPTable.bounded_empty
  | @loadDict _ lib' file code _ h _ =>
    refine Fallible.foldlM_invariant (P := IPTable.Bounded) (fun t line t' ht hl => ?_)
      IPTable.bounded_empty (loadDict_eq_ok.1 h).1
    obtain ⟨f0, f1, f2, rest, start, stop, -, -, -, hpush⟩ := loadLine_eq_ok.1 hl
    exact ht.pushBack hpush
  | pushItem _ h ih =>
    obtain ⟨s, e, -, -, hpush⟩ := pushItem_eq_ok.1 h
    exact ih.pushBack hpush
  | cleanUp => exact IPTable.bounded_empty

end IpLib
end MongoUtils
