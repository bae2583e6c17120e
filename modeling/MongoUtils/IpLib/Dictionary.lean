import MongoUtils.IpLib.GetCountry
import Mathlib.Data.Finset.Card
import Mathlib.Data.Finset.Range
import Mathlib.Data.List.Chain

/-!
# Dictionaries

The dictionaries in `ip_lib/dict` have one line for each range, `start|end|country` with
further fields behind. `DictLine` is such a line and `dictText` the text of a file of them.

* `loadLine_text`: loading a line appends the entry that it describes;
* `loadDict_dictText`: loading a dictionary gives exactly the entries of its lines;
* `getCountry_dictText`: after that, `GetCountry` agrees with a linear scan of the lines.
-/

namespace MongoUtils
namespace IpLib

/-! ### Text -/

/-- A text made of these lines, with or without a newline at the end. -/
def joinLines (ls : List Str) (newline : Bool) : Str :=
  [10].intercalate ls ++ if newline then [10] else []

/-- **`std::getline` gives the lines back** that a text was made of, if none of them is empty. -/
theorem fileLines_joinLines {ls : List Str} (hne : ls ≠ []) (hlines : ∀ l ∈ ls, l ≠ [])
    (hmem : ∀ l ∈ ls, 10 ∉ l) (newline : Bool) : fileLines (joinLines ls newline) = ls := by
  unfold fileLines joinLines
  induction ls with
  | nil => exact absurd rfl hne
  | cons l ls ih =>
    simp only [List.mem_cons, forall_eq_or_imp] at hlines hmem
    cases ls with
    | nil =>
      rw [List.intercalate_singleton]
      cases newline with
      | true => simp [fileLinesFrom_append hmem.1, fileLinesFrom]
      | false => simp [fileLinesFrom_last hmem.1, hlines.1]
    | cons m ls =>
      rw [List.intercalate_cons_cons, List.append_assoc, List.append_assoc,
        List.singleton_append, fileLinesFrom_append hmem.1, List.nil_append,
        ih (by simp) hlines.2 hmem.2]

/-! ### Lines -/

/-- A line of a dictionary. The fields are not empty and contain neither a NUL, a newline nor
the separator `|`; the second one may have a suffix behind the address. -/
structure DictLine where
  start : Quad
  stop : Quad
  suffix : Str
  country : Str
  more : List Str
  le : start.address ≤ stop.address
  suffix_head : suffix = [] ∨ suffix.head? = some 58
  suffix_dot : 46 ∉ suffix
  ne_nil : ∀ f ∈ country :: more, f ≠ []
  clean : ∀ f ∈ suffix :: country :: more, 0 ∉ f ∧ 10 ∉ f ∧ 124 ∉ f

namespace DictLine

/-- The fields of the line. -/
def fields (l : DictLine) : List Str :=
  l.start.text :: (l.stop.text ++ l.suffix) :: l.country :: l.more

/-- The line as it stands in the file. -/
def text (l : DictLine) : Str := [124].intercalate l.fields

/-- The entry that the line describes. -/
def item (l : DictLine) : IPItem :=
  ⟨UInt64.ofNat l.start.address, UInt64.ofNat l.stop.address, l.country⟩

/-- The range of the line contains the address. -/
def Contains (l : DictLine) (address : ℕ) : Prop :=
  l.start.address ≤ address ∧ address ≤ l.stop.address

theorem plain_text (q : Quad) : Plain q.text := by
  refine ⟨?_, q.notMem_text rfl (by decide), q.notMem_text rfl (by decide),
    q.notMem_text rfl (by decide)⟩
  obtain ⟨c, ds, hds⟩ := List.exists_cons_of_ne_nil q.a.ne_nil
  simp [Quad.text, hds]

theorem fields_plain (l : DictLine) : ∀ f ∈ l.fields, Plain f := by
  have hsuffix := l.clean l.suffix (by simp)
  have hstop : Plain (l.stop.text ++ l.suffix) := by
    obtain ⟨hne, h0, h10, h124⟩ := plain_text l.stop
    simp [Plain, hne, h0, h10, h124, hsuffix]
  have hmore : ∀ f ∈ l.country :: l.more, Plain f := fun f hf =>
    ⟨l.ne_nil f hf, l.clean f (List.mem_cons_of_mem _ hf)⟩
  simp only [List.mem_cons, forall_eq_or_imp] at hmore
  simp only [fields, List.mem_cons, forall_eq_or_imp]
  exact ⟨plain_text l.start, hstop, hmore⟩

theorem text_ne_nil (l : DictLine) : l.text ≠ [] := by
  obtain ⟨c, f, hf⟩ := List.exists_cons_of_ne_nil (plain_text l.start).1
  simp [text, fields, hf]

theorem newline_notMem_text (l : DictLine) : 10 ∉ l.text := newline_notMem_fields l.fields_plain

theorem splitString_text (l : DictLine) : splitString l.text [] 124 = .ok l.fields :=
  splitString_fields l.fields_plain

theorem ip2int_stop (l : DictLine) :
    ∃ v, ip2int (l.stop.text ++ l.suffix) = .ok v ∧ v.toNat = l.stop.address := by
  refine ip2int_quad_append l.stop l.suffix l.suffix_dot (l.clean _ (by simp)).1 fun c hc => ?_
  rcases l.suffix_head with h | h
  · simp [h] at hc
  · rw [h, Option.mem_some_iff] at hc
    subst hc
    decide

/-- **Loading a line** appends the entry that it describes. -/
theorem loadLine_text (l : DictLine) (t : IPTable) :
    IPLib.loadLine t l.text = t.pushBack l.item := by
  obtain ⟨start, hstart, hstart_eq⟩ := ip2int_quad l.start
  obtain ⟨stop, hstop, hstop_eq⟩ := l.ip2int_stop
  have hstart_lt : start.toNat < 2 ^ 32 := hstart_eq ▸ l.start.address_lt
  have hstop_lt : stop.toNat < 2 ^ 32 := hstop_eq ▸ l.stop.address_lt
  simp only [IPLib.loadLine, l.splitString_text, fields, fieldAt, Fallible.ok_bind,
    List.getElem?_cons_zero, List.getElem?_cons_succ, hstart, hstop, narrow_of_lt hstart_lt,
    narrow_of_lt hstop_lt, item, ← hstart_eq, ← hstop_eq, UInt64.ofNat_toNat]

end DictLine

/-! ### Files -/

/-- Each range ends below the beginning of the next one. -/
def InOrder (ls : List DictLine) : Prop :=
  ls.IsChain fun l m => l.stop.address < m.start.address

/-- The text of a dictionary file, with or without a newline at the end. -/
def dictText (ls : List DictLine) (newline : Bool) : Str :=
  joinLines (ls.map DictLine.text) newline

theorem InOrder.pairwise {ls : List DictLine} (h : InOrder ls) :
    ls.Pairwise fun l m => l.stop.address < m.start.address := by
  have : IsTrans DictLine fun l m => l.stop.address < m.start.address :=
    ⟨fun _ m _ hlm hmn => hlm.trans (m.le.trans_lt hmn)⟩
  exact List.isChain_iff_pairwise.1 h

/-- There are not more lines in order than there are addresses. -/
theorem InOrder.length_le {ls : List DictLine} (h : InOrder ls) : ls.length ≤ 2 ^ 32 := by
  have hnodup : (ls.map fun l => l.start.address).Nodup := by
    rw [List.nodup_iff_pairwise_ne, List.pairwise_map]
    exact h.pairwise.imp fun {l m} hlt => (l.le.trans_lt hlt).ne
  have hsub : (ls.map fun l => l.start.address).toFinset ⊆ Finset.range (2 ^ 32) := by
    intro n hn
    simp only [List.mem_toFinset, List.mem_map] at hn
    obtain ⟨l, -, rfl⟩ := hn
    exact Finset.mem_range.2 l.start.address_lt
  have hcard := Finset.card_le_card hsub
  rwa [List.toFinset_card_of_nodup hnodup, List.length_map, Finset.card_range] at hcard

/-- Loading lines one after the other appends their entries, while there is room. -/
theorem foldlM_loadLine {ls : List DictLine} {t : IPTable}
    (hroom : t.items.length + ls.length ≤ maxSize) :
    ∃ t', (ls.map DictLine.text).foldlM IPLib.loadLine t = .ok t' ∧
      t'.items = t.items ++ ls.map DictLine.item := by
  induction ls generalizing t with
  | nil => exact ⟨t, rfl, by simp⟩
  | cons l ls ih =>
    rw [List.length_cons] at hroom
    obtain ⟨t₁, ht₁, hitems₁⟩ := IPTable.pushBack_of_lt (t := t) (by omega) l.item
    have hlen₁ : t₁.items.length = t.items.length + 1 := by simp [hitems₁]
    obtain ⟨t', ht', hitems'⟩ := ih (t := t₁) (by omega)
    refine ⟨t', ?_, by simp [hitems', hitems₁]⟩
    rw [List.map_cons, List.foldlM_cons, l.loadLine_text, ht₁]
    exact ht'

/-- **Loading a dictionary** leaves the entries of its lines, and nothing else. -/
theorem loadDict_dictText (lib : IPLib) {ls : List DictLine} (hne : ls ≠ []) (hord : InOrder ls)
    (newline : Bool) :
    ∃ lib', lib.loadDict (some (dictText ls newline)) = .ok (lib', 0) ∧
      lib'.mIpTable.items = ls.map DictLine.item := by
  have hlines : fileLines (dictText ls newline) = ls.map DictLine.text := by
    refine fileLines_joinLines (by simpa using hne) ?_ ?_ newline
    · simp [DictLine.text_ne_nil]
    · simp [DictLine.newline_notMem_text]
  have hroom : IPTable.empty.items.length + ls.length ≤ maxSize := by
    have := hord.length_le
    simp only [IPTable.empty, List.length_nil, maxSize]
    omega
  obtain ⟨t, ht, hitems⟩ := foldlM_loadLine hroom
  refine ⟨⟨t⟩, IPLib.loadDict_eq_ok.2 ⟨?_, rfl⟩, by simpa [IPTable.empty] using hitems⟩
  rw [dictLines, Option.map_some, Option.getD_some, hlines]
  exact ht

/-! ### Lookup -/

/-- The range of a line as an interval of addresses. -/
def DictLine.entry (l : DictLine) : IntervalMap.Entry ℕ Str :=
  ⟨l.start.address, l.stop.address, l.country⟩

theorem DictLine.entry_item (l : DictLine) : l.item.entry = l.entry := by
  have hstart := l.start.address_lt
  have hstop := l.stop.address_lt
  simp only [IPItem.entry, item, entry, UInt64.toNat_ofNat']
  rw [Nat.mod_eq_of_lt (by omega), Nat.mod_eq_of_lt (by omega)]

/-- The table of a dictionary as a list of intervals. -/
theorem entries_of_items {t : IPTable} {ls : List DictLine} (h : t.items = ls.map DictLine.item) :
    t.entries = ls.map DictLine.entry := by
  rw [IPTable.entries, h, List.map_map]
  exact List.map_congr_left fun l _ => l.entry_item

theorem InOrder.ascending {ls : List DictLine} (h : InOrder ls) :
    IntervalMap.Ascending (ls.map DictLine.entry) where
  le := by simpa [DictLine.entry] using fun l _ => DictLine.le l
  lt := by
    rw [List.pairwise_map]
    exact h.pairwise

/-- **Loading and looking up agrees with a linear scan of the lines.** For every object and
every dictionary in order, `LoadDict` succeeds, and after it `GetCountry` finds the country of
the one line that contains the address, or answers `-1` and leaves `country` alone if there is
none, for every address from the first line's start on. -/
theorem getCountry_dictText (lib : IPLib) (ls : List DictLine) (hne : ls ≠ [])
    (hord : InOrder ls) (newline : Bool) :
    ∃ lib', lib.loadDict (some (dictText ls newline)) = .ok (lib', 0) ∧
      ∀ q : Quad, (∀ first ∈ ls.head?, first.start.address ≤ q.address) → ∀ country : Str,
        (∀ (i j : ℕ) (l m : DictLine), ls[i]? = some l → ls[j]? = some m →
          l.Contains q.address → m.Contains q.address → i = j) ∧
        (∀ l ∈ ls, l.Contains q.address →
          lib'.getCountry q.text country = .ok (lib', 0, l.country)) ∧
        ((∀ l ∈ ls, ¬ l.Contains q.address) →
          lib'.getCountry q.text country = .ok (lib', -1, country)) := by
  obtain ⟨lib', hload, hitems⟩ := loadDict_dictText lib hne hord newline
  refine ⟨lib', hload, fun q hfirst country => ?_⟩
  obtain ⟨ip, hip, haddr⟩ := ip2int_quad q
  have hentries := entries_of_items hitems
  have hasc := hord.ascending
  have hne' : lib'.mIpTable.items ≠ [] := by simpa [hitems] using hne
  have hnb : IPLib.NotBelow lib'.mIpTable ip := by
    -- The first entry is that of the first line.
    intro first hmem
    rw [hitems, List.head?_map, Option.mem_map] at hmem
    obtain ⟨l, hl, rfl⟩ := hmem
    have hlo := congrArg IntervalMap.Entry.lo l.entry_item
    rw [UInt64.le_iff_toNat_le, haddr]
    exact le_of_eq_of_le hlo (hfirst l hl)
  have hsearch := IPLib.search_refines_lookup hne' (hentries ▸ hasc) hnb country
  rw [hentries, haddr] at hsearch
  have hget : ∀ (i : ℕ) (l : DictLine), ls[i]? = some l →
      (ls.map DictLine.entry)[i]? = some l.entry := fun i l h => by simp [h]
  refine ⟨fun i j l m hl hm hlq hmq => hasc.index_unique (hget i l hl) (hget j m hm) hlq hmq,
    fun l hl hlq => ?_, fun hnone => ?_⟩
  · obtain ⟨i, hi⟩ := List.mem_iff_getElem?.1 hl
    rw [IPLib.getCountry_eq hne' hip, hsearch, hasc.lookup_eq_some (hget i l hi) hlq]
    rfl
  · have hnone' : ∀ e ∈ ls.map DictLine.entry, ¬ e.Contains q.address := by
      intro e he
      obtain ⟨l, hl, rfl⟩ := List.mem_map.1 he
      exact hnone l hl
    rw [IPLib.getCountry_eq hne' hip, hsearch, IntervalMap.lookup_eq_none hnone']
    rfl

/-- `1.0.0.0|1.0.0.9:80|AA|x` -/
def lineAA : DictLine where
  start := .ofFin 1 0 0 0
  stop := .ofFin 1 0 0 9
  suffix := ascii ":80"
  country := ascii "AA"
  more := [ascii "x"]
  le := by decide
  suffix_head := by decide
  suffix_dot := by decide
  ne_nil := by decide
  clean := by decide

/-- `1.0.0.11|1.0.0.12|BB` -/
def lineBB : DictLine where
  start := .ofFin 1 0 0 11
  stop := .ofFin 1 0 0 12
  suffix := []
  country := ascii "BB"
  more := []
  le := by decide
  suffix_head := by decide
  suffix_dot := by decide
  ne_nil := by decide
  clean := by decide

/-- In the dictionary of these two lines, `1.0.0.12` is found and `1.0.0.10` is in the gap. -/
theorem getCountry_dictText_two :
    ∃ lib', IPLib.new.loadDict (some (ascii "1.0.0.0|1.0.0.9:80|AA|x\n1.0.0.11|1.0.0.12|BB")) =
        .ok (lib', 0) ∧
      lib'.getCountry (ascii "1.0.0.12") [] = .ok (lib', 0, ascii "BB") ∧
      lib'.getCountry (ascii "1.0.0.10") (ascii "??") = .ok (lib', -1, ascii "??") := by
  have htext : dictText [lineAA, lineBB] false =
      ascii "1.0.0.0|1.0.0.9:80|AA|x\n1.0.0.11|1.0.0.12|BB" := by decide +kernel
  obtain ⟨lib', hload, hget⟩ := getCountry_dictText .new [lineAA, lineBB] (by simp)
    (List.isChain_pair.2 (by decide)) false
  refine ⟨lib', htext ▸ hload, ?_, ?_⟩
  · exact (hget (.ofFin 1 0 0 12) (by decide) []).2.1 lineBB (by simp) (by
      constructor <;> decide)
  · exact (hget (.ofFin 1 0 0 10) (by decide) (ascii "??")).2.2 (by
      simp only [List.mem_cons, List.not_mem_nil, or_false, forall_eq_or_imp, forall_eq]
      constructor <;> rintro ⟨h1, h2⟩ <;> revert h1 h2 <;> decide)

end IpLib
end MongoUtils
