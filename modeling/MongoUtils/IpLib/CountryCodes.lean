import MongoUtils.IpLib.Dictionary
import MongoUtils.IpLib.Files

/-!
# `ip_lib/test.py`: the callback for country codes

In `ip_lib/dict/col_iplib_global.txt` the country code follows the second address behind a colon,
`start|end:code|...`. `LoadDict` takes the next field for the country. The test program has a
callback for such a file, which splits a line at bars and colons and returns the first three
fields.

* `codeCallback`: this callback. Unlike `split_string` it keeps empty fields, and it fails on a
  line that has not three of them;
* `CodedLine`: a line of such a dictionary;
* `getCountry_lookup`: what `GetCountry` answers over an ascending table;
* `getCountry_coded`: an object that is loaded with the callback answers with the codes, for the
  same addresses for which one that is loaded by `LoadDict` answers with the next field.
-/

namespace MongoUtils
namespace IpLib

open Fallible

/-! ### The callback -/

/-- A bar or a colon: the separators of the pattern `\||:`. -/
def isSeparator (c : UInt8) : Bool := c = 124 || c = 58

/-- `callback(line)`: the first three of the fields that `pattern.split(line)` returns. With fewer
fields it raises an `IndexError`, and `IP2Location_init` goes on with a null pointer. -/
def codeCallback : Callback := fun line =>
  match line.splitOnP isSeparator with
  | f0 :: f1 :: f2 :: _ => .ok (some (f0, f1, f2))
  | _ => .error .nullPointer

/-- A line with a code behind the second address. -/
structure CodedLine extends DictLine where
  code : Str
  suffix_eq : suffix = 58 :: code
  colon_notMem : 58 ∉ code

namespace CodedLine

variable (l : CodedLine)

theorem code_clean : 0 ∉ l.code ∧ 10 ∉ l.code ∧ 124 ∉ l.code := by
  have h := l.clean l.suffix (by simp)
  rw [l.suffix_eq] at h
  simpa using h

theorem text_eq : ∃ rest, l.text =
    l.start.text ++ 124 :: (l.stop.text ++ 58 :: (l.code ++ 124 :: rest)) := by
  refine ⟨[124].intercalate (l.country :: l.more), ?_⟩
  rw [DictLine.text, DictLine.fields, l.suffix_eq]
  simp [List.intercalate_cons_cons]

/-- The entry that the callback makes of the line. -/
def codeItem : IPItem :=
  ⟨UInt64.ofNat l.start.address, UInt64.ofNat l.stop.address, l.code⟩

theorem separator_notMem_text (q : Quad) : ∀ c ∈ q.text, isSeparator c = false := by
  intro c hc
  have hbar : c ≠ 124 := fun h => q.notMem_text (by decide) (by decide) (h ▸ hc)
  have hcolon : c ≠ 58 := fun h => q.notMem_text (by decide) (by decide) (h ▸ hc)
  simp [isSeparator, hbar, hcolon]

theorem separator_notMem_code : ∀ c ∈ l.code, isSeparator c = false := by
  intro c hc
  have hbar : c ≠ 124 := fun h => l.code_clean.2.2 (h ▸ hc)
  have hcolon : c ≠ 58 := fun h => l.colon_notMem (h ▸ hc)
  simp [isSeparator, hbar, hcolon]

/-- **The callback finds the two addresses and the code**, whatever follows the line. -/
theorem codeCallback_text (tail : Str) :
    codeCallback (l.text ++ tail) = .ok (some (l.start.text, l.stop.text, l.code)) := by
  obtain ⟨rest, hrest⟩ := l.text_eq
  have hsplit : (l.text ++ tail).splitOnP isSeparator =
      l.start.text :: l.stop.text :: l.code :: (rest ++ tail).splitOnP isSeparator := by
    rw [hrest]
    simp only [List.append_assoc, List.cons_append]
    rw [List.splitOnP_append_cons_of_forall_mem (separator_notMem_text l.start) 124 rfl,
      List.splitOnP_append_cons_of_forall_mem (separator_notMem_text l.stop) 58 rfl,
      List.splitOnP_append_cons_of_forall_mem l.separator_notMem_code 124 rfl]
  unfold codeCallback
  rw [hsplit]

/-- What the loader pushes for the line. -/
theorem tupleRecord_text {tail : Str} (h0 : 0 ∉ tail) :
    IP2Location.tupleRecord codeCallback (l.text ++ tail) = .ok [l.codeItem] := by
  obtain ⟨start, hstart, hstart_eq⟩ := ip2int_quad l.start
  obtain ⟨stop, hstop, hstop_eq⟩ := ip2int_quad l.stop
  have hstart_lt : start.toNat < 2 ^ 32 := hstart_eq ▸ l.start.address_lt
  have hstop_lt : stop.toNat < 2 ^ 32 := hstop_eq ▸ l.stop.address_lt
  have htext : 0 ∉ l.text := notMem_intercalate (by decide) fun f hf => (l.fields_plain f hf).2.1
  have hcut : cut (l.text ++ tail) = l.text ++ tail := cut_of_notMem (by simp [htext, h0])
  refine IP2Location.tupleRecord_eq_ok.2 (Or.inl ⟨l.start.text, l.stop.text, l.code, start, stop,
    ?_, ?_, ?_, ?_⟩)
  · rw [hcut, l.codeCallback_text]
  · rwa [cut_of_notMem (DictLine.plain_text l.start).2.1]
  · rwa [cut_of_notMem (DictLine.plain_text l.stop).2.1]
  · rw [cut_of_notMem l.code_clean.1, narrow_of_lt hstart_lt, narrow_of_lt hstop_lt, codeItem,
      ← hstart_eq, ← hstop_eq, UInt64.ofNat_toNat, UInt64.ofNat_toNat]

end CodedLine

/-! ### Lookup -/

/-- **What `GetCountry` answers over an ascending table**, for a dotted quad that does not lie below
the first range. -/
theorem IPLib.getCountry_lookup {lib : IPLib} (hasc : IntervalMap.Ascending lib.mIpTable.entries)
    (q : Quad) (hfirst : ∀ first ∈ lib.mIpTable.entries.head?, first.lo ≤ q.address) :
    ∃ code, lib.getCountry q.text [] =
      .ok (lib, code, (IntervalMap.lookup lib.mIpTable.entries q.address).getD []) := by
  obtain ⟨ip, hip, haddr⟩ := ip2int_quad q
  by_cases hne : lib.mIpTable.items = []
  · refine ⟨-2, ?_⟩
    rw [IPLib.getCountry_empty hne, IPTable.entries, hne]
    rfl
  · have hnb : IPLib.NotBelow lib.mIpTable ip := by
      intro first hmem
      rw [UInt64.le_iff_toNat_le, haddr]
      refine hfirst first.entry ?_
      rw [IPTable.entries, List.head?_map, Option.mem_map]
      exact ⟨first, hmem, rfl⟩
    rw [IPLib.getCountry_eq hne hip, IPLib.search_refines_lookup hne hasc hnb, haddr]
    cases IntervalMap.lookup lib.mIpTable.entries q.address with
    | none => exact ⟨-1, rfl⟩
    | some found => exact ⟨0, rfl⟩

/-- A country as `get_country` returns it: a C string, and `None` instead of an empty one. -/
def shown (country : Str) : Option Str := if country = [] then none else some (cut country)

theorem IP2Location.getCountry_lookup (self : IP2Location)
    (hasc : IntervalMap.Ascending self.ipLib.mIpTable.entries) (q : Quad)
    (hfirst : ∀ first ∈ self.ipLib.mIpTable.entries.head?, first.lo ≤ q.address) :
    self.getCountry q.text =
      .ok (self, (IntervalMap.lookup self.ipLib.mIpTable.entries q.address).bind shown) := by
  obtain ⟨code, hget⟩ := IPLib.getCountry_lookup hasc q hfirst
  rw [IP2Location.getCountry, cut_of_notMem (DictLine.plain_text q).2.1, hget]
  cases IntervalMap.lookup self.ipLib.mIpTable.entries q.address <;> rfl

/-! ### The two loaders -/

theorem joinLines_concat (ls : List Str) (l : Str) (newline : Bool) :
    joinLines (ls ++ [l]) newline = unlines ls ++ (l ++ if newline then [10] else []) := by
  unfold joinLines
  induction ls with
  | nil => simp [unlines]
  | cons m ls ih =>
    obtain ⟨k, ks, hk⟩ := List.exists_cons_of_ne_nil (List.append_ne_nil_of_right_ne_nil ls
      (List.cons_ne_nil l []))
    rw [List.cons_append, hk, List.intercalate_cons_cons, ← hk, unlines_cons]
    simp only [List.append_assoc, List.cons_append, List.nil_append] at ih ⊢
    rw [ih]

theorem rawLines_joinLines {ls : List Str} {l : Str} (hls : ∀ m ∈ ls, 10 ∉ m) (hl : 10 ∉ l)
    (hne : l ≠ []) (newline : Bool) :
    rawLines (joinLines (ls ++ [l]) newline) =
      ls.map withNewline ++ [l ++ if newline then [10] else []] := by
  rw [joinLines_concat, rawLines_unlines_append hls]
  cases newline with
  | true => simpa [withNewline, rawLines] using rawLines_newline hl []
  | false => simp [rawLines_last hl, hne]

/-- Lines that fit into the buffer come to a callback one by one: one entry for each line, if the
callback makes one of it with and without the newline. -/
theorem forall₂_tupleRecord_lines {callback : Callback} {γ : Type} (text : γ → Str)
    (item : γ → IPItem) {ls : List γ} (hne : ls ≠ []) (hnil : ∀ l ∈ ls, text l ≠ [])
    (hmem : ∀ l ∈ ls, 10 ∉ text l) (hlen : ∀ l ∈ ls, (text l).length + 1 < bufSize)
    (hrec : ∀ l ∈ ls, ∀ newline : Bool, IP2Location.tupleRecord callback
      (text l ++ if newline then [10] else []) = .ok [item l]) (newline : Bool) :
    List.Forall₂ (fun buf item => IP2Location.tupleRecord callback buf = .ok [item])
      (pieces (joinLines (ls.map text) newline)) (ls.map item) := by
  obtain ⟨init, last, rfl⟩ : ∃ init last, ls = init ++ [last] :=
    ⟨ls.dropLast, ls.getLast hne, (List.dropLast_append_getLast hne).symm⟩
  rw [List.forall_mem_append, List.forall_mem_singleton] at hnil hmem hlen hrec
  have hraw := rawLines_joinLines (List.forall_mem_map.2 hmem.1) hmem.2 hnil.2 newline
  have hfit : LinesFit (joinLines ((init ++ [last]).map text) newline) := by
    unfold LinesFit
    rw [List.map_append, List.map_singleton, hraw, List.forall_mem_append,
      List.forall_mem_singleton, List.map_map, List.forall_mem_map]
    refine ⟨fun l hl => by simpa [withNewline] using hlen.1 l hl, ?_⟩
    have := hlen.2
    cases newline <;> simp <;> omega
  rw [(pieces_eq_rawLines_iff _).2 hfit, List.map_append, List.map_singleton, hraw, List.map_map,
    List.map_append, List.map_singleton]
  refine List.rel_append ?_ (.cons (hrec.2 newline) .nil)
  rw [List.forall₂_map_left_iff, List.forall₂_map_right_iff, List.forall₂_same]
  exact fun l hl => hrec.1 l hl true

section Coded

variable {ls : List CodedLine}

/-- **Loading with the callback** leaves the ranges with their codes. -/
theorem init_codeCallback (hne : ls ≠ []) (hord : InOrder (ls.map CodedLine.toDictLine))
    (hlen : ∀ l ∈ ls, l.text.length + 1 < bufSize) (newline : Bool) :
    ∃ self, IP2Location.new.init (some (dictText (ls.map CodedLine.toDictLine) newline))
        (some codeCallback) = .ok (self, 0) ∧
      self.ipLib.mIpTable.items = ls.map CodedLine.codeItem := by
  have hsize : (ls.map CodedLine.codeItem).length ≤ maxSize := by
    have hle := hord.length_le
    rw [List.length_map] at hle ⊢
    unfold maxSize
    omega
  have hrecords := forall₂_tupleRecord_lines (fun l : CodedLine => l.text) CodedLine.codeItem hne
    (fun l _ => l.text_ne_nil) (fun l _ => l.newline_notMem_text) hlen
    (fun l _ b => l.tupleRecord_text (by cases b <;> decide)) newline
  refine ⟨⟨⟨⟨ls.map CodedLine.codeItem, hsize⟩⟩⟩, ?_, rfl⟩
  rw [dictText, List.map_map]
  exact IP2Location.init_callback_of_forall₂ hrecords rfl

/-- The range of the line with its code. -/
def CodedLine.codeEntry (l : CodedLine) : IntervalMap.Entry ℕ Str :=
  ⟨l.start.address, l.stop.address, l.code⟩

theorem CodedLine.entry_codeItem (l : CodedLine) : l.codeItem.entry = l.codeEntry := by
  have hstart := l.start.address_lt
  have hstop := l.stop.address_lt
  simp only [IPItem.entry, codeItem, codeEntry, UInt64.toNat_ofNat']
  rw [Nat.mod_eq_of_lt (by omega), Nat.mod_eq_of_lt (by omega)]

theorem ascending_codeEntry (hord : InOrder (ls.map CodedLine.toDictLine)) :
    IntervalMap.Ascending (ls.map CodedLine.codeEntry) where
  le := by simpa [CodedLine.codeEntry] using fun l _ => DictLine.le (CodedLine.toDictLine l)
  lt := by
    have h := hord.pairwise
    rw [List.pairwise_map] at h ⊢
    exact h

/-- What an object answers whose table holds the ranges of these lines with the values `v`. -/
theorem getCountry_of_lines {γ : Type} {lines : List γ} {e : γ → IntervalMap.Entry ℕ Str}
    {self : IP2Location} (hentries : self.ipLib.mIpTable.entries = lines.map e)
    (hasc : IntervalMap.Ascending (lines.map e)) (q : Quad)
    (hfirst : ∀ first ∈ lines.head?, (e first).lo ≤ q.address) :
    (∀ l ∈ lines, (e l).Contains q.address →
      self.getCountry q.text = .ok (self, shown (e l).val)) ∧
    ((∀ l ∈ lines, ¬ (e l).Contains q.address) → self.getCountry q.text = .ok (self, none)) := by
  have hget := IP2Location.getCountry_lookup self (hentries ▸ hasc) q (by
    intro first hmem
    rw [hentries, List.head?_map, Option.mem_map] at hmem
    obtain ⟨l, hl, rfl⟩ := hmem
    exact hfirst l hl)
  rw [hget, hentries]
  constructor
  · intro l hl hcontains
    obtain ⟨i, hi⟩ := List.mem_iff_getElem?.1 hl
    have he : (lines.map e)[i]? = some (e l) := by simp [hi]
    rw [hasc.lookup_eq_some he hcontains]
    rfl
  · intro hnone
    rw [IntervalMap.lookup_eq_none (List.forall_mem_map.2 hnone)]
    rfl

/-- **The two loaders on a dictionary with country codes.** Both succeed on a file of such lines in
order, if each fits into the buffer. Then the objects find the same addresses, from the first line's
start on; the one that was loaded with the callback answers with the code of the line that contains
the address, `None` if it is empty, and the other one with the field behind it. -/
theorem getCountry_coded (ls : List CodedLine) (hne : ls ≠ [])
    (hord : InOrder (ls.map CodedLine.toDictLine)) (hlen : ∀ l ∈ ls, l.text.length + 1 < bufSize)
    (newline : Bool) :
    ∃ byPath byCallback,
      IP2Location.new.init (some (dictText (ls.map CodedLine.toDictLine) newline)) none =
        .ok (byPath, 0) ∧
      IP2Location.new.init (some (dictText (ls.map CodedLine.toDictLine) newline))
        (some codeCallback) = .ok (byCallback, 0) ∧
      ∀ q : Quad, (∀ first ∈ ls.head?, first.start.address ≤ q.address) →
        (∀ l ∈ ls, l.Contains q.address →
          byPath.getCountry q.text = .ok (byPath, some l.country) ∧
          byCallback.getCountry q.text =
            .ok (byCallback, if l.code = [] then none else some l.code)) ∧
        ((∀ l ∈ ls, ¬ l.Contains q.address) →
          byPath.getCountry q.text = .ok (byPath, none) ∧
          byCallback.getCountry q.text = .ok (byCallback, none)) := by
  obtain ⟨lib, hload, hitems⟩ := loadDict_dictText IPLib.new (by simpa using hne) hord newline
  obtain ⟨byCallback, hinit, hcodes⟩ := init_codeCallback hne hord hlen newline
  have hpath : (IP2Location.mk lib).ipLib.mIpTable.entries =
      ls.map fun l => l.toDictLine.entry := by
    rw [entries_of_items hitems, List.map_map]
    rfl
  have hcallback : byCallback.ipLib.mIpTable.entries = ls.map CodedLine.codeEntry := by
    simp [IPTable.entries, hcodes, Function.comp_def, CodedLine.entry_codeItem]
  have hasc : IntervalMap.Ascending (ls.map fun l => l.toDictLine.entry) := by
    have h := hord.ascending
    rwa [List.map_map] at h
  refine ⟨⟨lib⟩, byCallback, ?_, hinit, fun q hfirst => ?_⟩
  · rw [IP2Location.init, IP2Location.new, hload]
    rfl
  · obtain ⟨hfound, hnone⟩ := getCountry_of_lines hpath hasc q hfirst
    obtain ⟨hfound', hnone'⟩ := getCountry_of_lines hcallback (ascending_codeEntry hord) q hfirst
    refine ⟨fun l hl hcontains => ⟨?_, ?_⟩, fun h => ⟨hnone h, hnone' h⟩⟩
    · have hplain := l.fields_plain l.country (by simp [DictLine.fields])
      have hshown : shown l.country = some l.country := by
        rw [shown, if_neg hplain.1, cut_of_notMem hplain.2.1]
      rw [hfound l hl hcontains, show l.toDictLine.entry.val = l.country from rfl, hshown]
    · have hshown : shown l.code = if l.code = [] then none else some l.code := by
        rw [shown, cut_of_notMem l.code_clean.1]
      rw [hfound' l hl hcontains, show l.codeEntry.val = l.code from rfl, hshown]

/-- `1.0.0.0|1.0.0.9:AU|None|x` -/
def lineAU : CodedLine where
  start := lineAA.start
  stop := lineAA.stop
  suffix := ascii ":AU"
  country := ascii "None"
  more := [ascii "x"]
  le := by decide
  suffix_head := by decide
  suffix_dot := by decide
  ne_nil := by decide
  clean := by decide
  code := ascii "AU"
  suffix_eq := rfl
  colon_notMem := by decide

/-- The dictionary of this line, loaded in the two ways. -/
theorem getCountry_coded_line :
    ∃ byPath byCallback,
      IP2Location.new.init (some (ascii "1.0.0.0|1.0.0.9:AU|None|x\n")) none =
        .ok (byPath, 0) ∧
      IP2Location.new.init (some (ascii "1.0.0.0|1.0.0.9:AU|None|x\n")) (some codeCallback) =
        .ok (byCallback, 0) ∧
      byPath.getCountry (ascii "1.0.0.7") = .ok (byPath, some (ascii "None")) ∧
      byCallback.getCountry (ascii "1.0.0.7") = .ok (byCallback, some (ascii "AU")) := by
  have htext : dictText [lineAU.toDictLine] true = ascii "1.0.0.0|1.0.0.9:AU|None|x\n" := by
    decide +kernel
  obtain ⟨byPath, byCallback, hpath, hcallback, hget⟩ := getCountry_coded [lineAU] (by simp)
    (List.isChain_singleton _) (by decide +kernel) true
  obtain ⟨h1, h2⟩ := (hget (.ofFin 1 0 0 7) (by decide)).1 lineAU (by simp) (by
    constructor <;> decide)
  exact ⟨byPath, byCallback, htext ▸ hpath, htext ▸ hcallback, h1, h2⟩

end Coded

end IpLib
end MongoUtils
