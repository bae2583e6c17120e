import MongoUtils.IpLib.Files

/-!
# The two loaders of `IP2Location`

Does a callback that does what `LoadDict` does build the table that `LoadDict` builds? `record` is
the entry that a piece of text describes, if it has three fields. `LoadDict` takes the record of
every line (`init_path_iff`), the loader with the callback that of every buffer
(`tupleRecord_splitCallback`). The buffers are the lines if these fit (`records_rawLines`), so then
the tables are the same (`sameTable_of_linesFit`); `not_sameTable` is a line that does not fit and
becomes two entries.
-/

namespace MongoUtils
namespace IpLib

open Fallible

/-! ### Records -/

/-- The entry that a text describes, if it has at least three fields. -/
def record (text : Str) : Except Fault (List IPItem) := do
  match ← threeFields text with
  | some (f0, f1, f2) => do
      let start ← ip2int f0
      let stop ← ip2int f1
      return [⟨narrow start, narrow stop, f2⟩]
  | none => return []

/-- The entry of a line: `LoadDict` has no way to pass one over. -/
def lineRecord (line : Str) : Except Fault (List IPItem) := do
  match ← record line with
  | [] => .error .indexOutOfRange
  | items => return items

theorem record_eq_ok {text : Str} {items : List IPItem} :
    record text = .ok items ↔
      (∃ f0 f1 f2 start stop, threeFields text = .ok (some (f0, f1, f2)) ∧
        ip2int f0 = .ok start ∧ ip2int f1 = .ok stop ∧
        items = [⟨narrow start, narrow stop, f2⟩]) ∨
      threeFields text = .ok none ∧ items = [] := by
  rw [record, bind_eq_ok]
  constructor
  · rintro ⟨_ | ⟨f0, f1, f2⟩, hf, h⟩
    · exact Or.inr ⟨hf, (Except.ok.inj h).symm⟩
    · simp only [bind_eq_ok, pure_eq_ok, Except.ok.injEq] at h
      obtain ⟨start, h0, stop, h1, rfl⟩ := h
      exact Or.inl ⟨f0, f1, f2, start, stop, hf, h0, h1, rfl⟩
  · rintro (⟨f0, f1, f2, start, stop, hf, h0, h1, rfl⟩ | ⟨hf, rfl⟩)
    · exact ⟨_, hf, by simp [h0, h1]⟩
    · exact ⟨_, hf, rfl⟩

theorem lineRecord_eq_ok {line : Str} {items : List IPItem} :
    lineRecord line = .ok items ↔ record line = .ok items ∧ items ≠ [] := by
  rw [lineRecord, bind_eq_ok]
  constructor
  · rintro ⟨_ | ⟨item, rest⟩, hrec, h⟩
    · cases h
    · obtain rfl := Except.ok.inj h
      exact ⟨hrec, by simp⟩
  · rintro ⟨hrec, hne⟩
    obtain ⟨item, rest, rfl⟩ := List.exists_cons_of_ne_nil hne
    exact ⟨_, hrec, rfl⟩

/-- **`LoadDict` appends the record of a line.** -/
theorem loadLine_eq_ok_iff {t t' : IPTable} {line : Str} :
    IPLib.loadLine t line = .ok t' ↔
      ∃ items, lineRecord line = .ok items ∧ t'.items = t.items ++ items := by
  simp only [IPLib.loadLine_eq_ok, lineRecord_eq_ok, IPTable.pushBack_eq_ok]
  constructor
  · rintro ⟨f0, f1, f2, rest, start, stop, hs, h0, h1, hitems⟩
    have hf := threeFields_eq_some.2 ⟨rest, hs⟩
    exact ⟨_, ⟨record_eq_ok.2 (Or.inl ⟨f0, f1, f2, start, stop, hf, h0, h1, rfl⟩), by simp⟩, hitems⟩
  · rintro ⟨items, ⟨hrec, hne⟩, hitems⟩
    rcases record_eq_ok.1 hrec with ⟨f0, f1, f2, start, stop, hf, h0, h1, rfl⟩ | ⟨-, rfl⟩
    · obtain ⟨rest, hs⟩ := threeFields_eq_some.1 hf
      exact ⟨f0, f1, f2, rest, start, stop, hs, h0, h1, hitems⟩
    · exact absurd rfl hne

/-- `splitCallback` makes the loader push the record of the buffer. -/
theorem tupleRecord_splitCallback {buf : Str} (h0 : 0 ∉ buf) :
    IP2Location.tupleRecord splitCallback buf = record (chomp buf) := by
  have hchomp : 0 ∉ chomp buf := by
    unfold chomp
    split_ifs
    · exact fun h => h0 (List.mem_of_mem_dropLast h)
    · exact h0
  rw [IP2Location.tupleRecord, splitCallback, record, cut_of_notMem h0]
  cases hf : threeFields (chomp buf) with
  | error e => rfl
  | ok fields =>
    rcases fields with _ | ⟨f0, f1, f2⟩
    · rfl
    · obtain ⟨hc0, hc1, hc2⟩ := cut_of_threeFields hchomp hf
      simp only [ok_bind, hc0, hc1, hc2]

/-! ### The two loaders -/

variable {content : Str} {self : IP2Location}

/-- **`LoadDict` collects the records of the lines**, whatever the table held before. -/
theorem loadDict_gather_iff {lib lib' : IPLib} {file : Option Str} {code : Int32} :
    lib.loadDict file = .ok (lib', code) ↔
      gather lineRecord (dictLines file) = .ok lib'.mIpTable.items ∧ code = 0 := by
  have hfold : (dictLines file).foldlM IPLib.loadLine IPTable.empty =
      .ok lib'.mIpTable ↔ ∃ items, gather lineRecord (dictLines file) = .ok items ∧
        lib'.mIpTable.items = IPTable.empty.items ++ items :=
    foldlM_appends IPLib.loadLine lineRecord IPTable.items (fun _ _ => IPTable.ext)
      (fun _ _ _ => IPTable.exists_prefix) fun _ _ _ => loadLine_eq_ok_iff
  rw [IPLib.loadDict_eq_ok, hfold]
  simp [IPTable.empty]

/-- **Without a callback**, the table consists of the records of the lines. -/
theorem init_path_iff :
    IP2Location.new.init (some content) none = .ok (self, 0) ↔
      gather lineRecord (fileLines content) = .ok self.ipLib.mIpTable.items := by
  rw [IP2Location.init, bind_eq_ok]
  constructor
  · rintro ⟨⟨lib, code⟩, hlib, h⟩
    cases h
    exact (loadDict_gather_iff.1 hlib).1
  · intro h
    exact ⟨(self.ipLib, 0), loadDict_gather_iff.2 ⟨h, rfl⟩, rfl⟩

theorem lineRecord_singleton {line : Str} {items : List IPItem} (h : lineRecord line = .ok items) :
    ∃ item, items = [item] := by
  obtain ⟨hrec, hne⟩ := lineRecord_eq_ok.1 h
  rcases record_eq_ok.1 hrec with ⟨_, _, _, _, _, -, -, -, rfl⟩ | ⟨-, rfl⟩
  · exact ⟨_, rfl⟩
  · exact absurd rfl hne

/-! ### The same table -/

/-- Whenever a fresh object is initialised with the path alone, the callback makes the same. -/
def SameTable (content : Str) : Prop :=
  ∀ self, IP2Location.new.init (some content) none = .ok (self, 0) →
    IP2Location.new.init (some content) (some splitCallback) = .ok (self, 0)

theorem chomp_of_notMem {s : Str} (h : 10 ∉ s) : chomp s = s := by
  rw [chomp, if_neg]
  exact fun hlast => h (List.mem_of_getLast? hlast)

theorem chomp_withNewline (l : Str) : chomp (withNewline l) = l := by
  rw [chomp, withNewline, if_pos (by simp), List.dropLast_concat]

/-- **The callback makes of the lines, with their newlines, what `LoadDict` makes of them.** -/
theorem records_rawLines (h0 : 0 ∉ content) {items : List IPItem}
    (h : gather lineRecord (fileLines content) = .ok items) :
    List.Forall₂ (fun buf item => IP2Location.tupleRecord splitCallback buf = .ok [item])
      (rawLines content) items := by
  induction content using text_induction generalizing items with
  | last l hl =>
    rw [rawLines_last hl]
    rw [fileLines_last hl] at h
    split_ifs at h ⊢ with hnil
    · cases h
      exact .nil
    · rw [gather_singleton_eq_ok] at h
      obtain ⟨item, rfl⟩ := lineRecord_singleton h
      refine .cons ?_ .nil
      rw [tupleRecord_splitCallback h0, chomp_of_notMem hl]
      exact (lineRecord_eq_ok.1 h).1
  | newline l rest hl ih =>
    rw [List.mem_append, List.mem_cons, not_or, not_or] at h0
    rw [fileLines_newline hl, gather_cons_eq_ok] at h
    obtain ⟨ys, zs, hys, hzs, rfl⟩ := h
    obtain ⟨item, rfl⟩ := lineRecord_singleton hys
    rw [rawLines_newline hl]
    refine .cons ?_ (ih h0.2.2 hzs)
    rw [tupleRecord_splitCallback (by simp [withNewline, h0.1]), chomp_withNewline]
    exact (lineRecord_eq_ok.1 hys).1

/-- **The callback loader and `LoadDict` build the same table** from a file without NULs of which
every line fits into the buffer with its newline. -/
theorem sameTable_of_linesFit {content : Str} (h0 : 0 ∉ content) (hfit : LinesFit content) :
    SameTable content := by
  intro self hself
  have hrecords := records_rawLines h0 (init_path_iff.1 hself)
  rw [← (pieces_eq_rawLines_iff content).2 hfit] at hrecords
  exact IP2Location.init_callback_of_forall₂ hrecords rfl

/-- Two lines of 20 bytes, the second one without a newline. -/
theorem sameTable_of_linesFit_short : SameTable (ascii "1.0.0.0|1.0.0.9|AA|x\n1.0.1.0|1.0.1.9|BB|x") :=
  sameTable_of_linesFit (by decide +kernel) (by decide +kernel)

/-! ### Lines that do not fit -/

/-- The entry of `AA`. -/
def itemAA : IPItem := ⟨0x01000000, 0x010000FF, ascii "AA"⟩

/-- A line that begins with the range of `AA`, whatever fields follow. -/
theorem record_firstRange {more : List Str}
    (h : ∀ f ∈ ascii "1.0.0.0" :: ascii "1.0.0.255" :: ascii "AA" :: more, Plain f) :
    record ([124].intercalate (ascii "1.0.0.0" :: ascii "1.0.0.255" :: ascii "AA" :: more)) =
      .ok [itemAA] :=
  record_eq_ok.2 (Or.inl ⟨_, _, _, 0x01000000, 0x010000FF,
    threeFields_eq_some.2 ⟨more, splitString_fields h⟩, by decide +kernel, by decide +kernel, rfl⟩)

/-- A line for `AA` with one more field. -/
def lineWith (field : Str) : Str :=
  [124].intercalate [ascii "1.0.0.0", ascii "1.0.0.255", ascii "AA", field]

/-- A line for `AA` with three more fields, the first of which is `pad` and an address. -/
def longLine (pad : Str) : Str :=
  [124].intercalate [ascii "1.0.0.0", ascii "1.0.0.255", ascii "AA", pad ++ ascii "2.0.0.0",
    ascii "2.0.0.255", ascii "BB"]

section LongLine

variable {pad : Str}

theorem lineWith_append (pad rest : Str) : lineWith (pad ++ rest) = lineWith pad ++ rest := by
  simp [lineWith]

theorem longLine_eq (pad : Str) : longLine pad = lineWith pad ++ ascii "2.0.0.0|2.0.0.255|BB" := by
  have h : ascii "2.0.0.0|2.0.0.255|BB" =
      ascii "2.0.0.0" ++ 124 :: (ascii "2.0.0.255" ++ 124 :: ascii "BB") := by decide
  rw [h]
  simp [longLine, lineWith]

section Padded

variable (hpad : ∀ c ∈ pad, c = 120) (hlen : pad.length = 1002)

include hpad hlen

theorem plain_padded {rest : Str} (hrest : ∀ c ∈ rest, c ≠ 0 ∧ c ≠ 10 ∧ c ≠ 124) :
    Plain (pad ++ rest) := by
  have hbyte : ∀ c ∈ pad ++ rest, c ≠ 0 ∧ c ≠ 10 ∧ c ≠ 124 := by
    intro c hc
    rcases List.mem_append.1 hc with hc | hc
    · rw [hpad c hc]
      decide
    · exact hrest c hc
  refine ⟨List.ne_nil_of_length_pos (by rw [List.length_append]; omega), ?_⟩
  exact ⟨fun h => (hbyte 0 h).1 rfl, fun h => (hbyte 10 h).2.1 rfl, fun h => (hbyte 124 h).2.2 rfl⟩

theorem plain_lineWith {rest : Str} (hrest : ∀ c ∈ rest, c ≠ 0 ∧ c ≠ 10 ∧ c ≠ 124) :
    ∀ f ∈ [ascii "1.0.0.0", ascii "1.0.0.255", ascii "AA", pad ++ rest], Plain f := by
  simp only [List.mem_cons, forall_eq_or_imp, List.not_mem_nil, false_imp_iff, implies_true,
    and_true]
  exact ⟨by decide, by decide, by decide, plain_padded hpad hlen hrest⟩

theorem plain_longLine :
    ∀ f ∈ [ascii "1.0.0.0", ascii "1.0.0.255", ascii "AA", pad ++ ascii "2.0.0.0",
      ascii "2.0.0.255", ascii "BB"], Plain f := by
  have h : Plain (pad ++ ascii "2.0.0.0") := plain_padded hpad hlen (by decide +kernel)
  simp only [List.mem_cons, forall_eq_or_imp, List.not_mem_nil, false_imp_iff, implies_true,
    and_true]
  exact ⟨by decide, by decide, by decide, h, by decide, by decide⟩

/-- The fields up to the padding are all that fits into the buffer. -/
theorem pieces_lineWith (rest : Str) : pieces (lineWith pad ++ rest) = lineWith pad :: pieces rest := by
  have hplain := plain_lineWith hpad hlen (List.forall_mem_nil _)
  rw [List.append_nil] at hplain
  have hmem := newline_notMem_fields hplain
  exact fgetsFrom_ended [] (by simp [ascii]) (fun h => hmem (List.mem_of_mem_dropLast h))
    (by simp [ascii, hlen, bufSize]) (Or.inr (by simp [ascii, hlen, bufSize])) rest

/-- The callback makes the entry of `AA` of them. -/
theorem tupleRecord_lineWith :
    IP2Location.tupleRecord splitCallback (lineWith pad) = .ok [itemAA] := by
  have hplain := plain_lineWith hpad hlen (List.forall_mem_nil _)
  rw [List.append_nil] at hplain
  rw [lineWith, tupleRecord_splitCallback (zero_notMem_fields hplain),
    chomp_of_notMem (newline_notMem_fields hplain), record_firstRange hplain]

/-- With 1002 bytes of padding, the second address begins a piece of its own, of which the callback
makes an entry, too. -/
theorem gather_longLine :
    gather (IP2Location.tupleRecord splitCallback) (pieces (longLine pad ++ [10])) =
      .ok [itemAA, ⟨0x02000000, 0x020000FF, ascii "BB"⟩] := by
  have hrest : pieces (ascii "2.0.0.0|2.0.0.255|BB" ++ [10]) =
      [ascii "2.0.0.0|2.0.0.255|BB" ++ [10]] := by decide +kernel
  have hsecond : IP2Location.tupleRecord splitCallback (ascii "2.0.0.0|2.0.0.255|BB" ++ [10]) =
      .ok [⟨0x02000000, 0x020000FF, ascii "BB"⟩] := by decide +kernel
  rw [longLine_eq, List.append_assoc, pieces_lineWith hpad hlen, hrest]
  exact gather_of_forall₂ (.cons (tupleRecord_lineWith hpad hlen) (.cons hsecond .nil))

end Padded

end LongLine

/-- **A line that becomes two entries**: `LoadDict` makes one entry of it, and the callback, which
`fgets` hands it in two pieces, a second one from the middle of a field. -/
theorem not_sameTable : ¬ SameTable (longLine (List.replicate 1002 120) ++ [10]) := by
  have hpad : ∀ c ∈ List.replicate 1002 (120 : UInt8), c = 120 := fun _ => List.eq_of_mem_replicate
  have hlen : (List.replicate 1002 (120 : UInt8)).length = 1002 := List.length_replicate
  generalize List.replicate 1002 (120 : UInt8) = pad at hpad hlen
  have hplain := plain_longLine hpad hlen
  have hline := lineRecord_eq_ok.2 ⟨record_firstRange hplain, List.cons_ne_nil _ _⟩
  have hfile : fileLines (longLine pad ++ [10]) = [longLine pad] :=
    fileLines_newline (newline_notMem_fields hplain) []
  -- The object that `LoadDict` makes, with one entry.
  let self : IP2Location := ⟨⟨.single itemAA⟩⟩
  have hself : IP2Location.new.init (some (longLine pad ++ [10])) none = .ok (self, 0) :=
    init_path_iff.2 (hfile ▸ gather_singleton_eq_ok.2 hline)
  intro h
  obtain ⟨-, ⟨items, hitems, htable⟩, -⟩ := IP2Location.init_callback_eq_ok.1 (h self hself)
  obtain rfl := Except.ok.inj ((gather_longLine hpad hlen).symm.trans hitems)
  exact absurd (congrArg List.length htable) (by decide)

/-- **A line that does not fit need not do harm**, if it is the last one and what is left of it for
the second piece is no tuple. -/
theorem exists_sameTable_not_linesFit : ∃ content, SameTable content ∧ ¬ LinesFit content := by
  obtain ⟨pad, hpad, hlen⟩ : ∃ pad : Str, (∀ c ∈ pad, c = 120) ∧ pad.length = 1002 :=
    ⟨List.replicate 1002 120, fun _ => List.eq_of_mem_replicate, List.length_replicate⟩
  have hx : ∀ c ∈ ascii "x", c ≠ 0 ∧ c ≠ 10 ∧ c ≠ 124 := by
    intro c hc
    obtain rfl : c = 120 := List.mem_singleton.1 hc
    decide
  have hplain := plain_lineWith hpad hlen hx
  have hnewline : 10 ∉ lineWith pad ++ ascii "x" :=
    lineWith_append pad _ ▸ newline_notMem_fields hplain
  have hrec : lineRecord (lineWith pad ++ ascii "x") = .ok [itemAA] :=
    lineWith_append pad _ ▸ lineRecord_eq_ok.2 ⟨record_firstRange hplain, List.cons_ne_nil _ _⟩
  -- The second piece has one field, so the callback returns no tuple for it.
  have hpieces : pieces (lineWith pad ++ ascii "x") = [lineWith pad, ascii "x"] := by
    rw [pieces_lineWith hpad hlen]
    exact congrArg _ (by decide)
  have hne : lineWith pad ++ ascii "x" ≠ [] := by simp [ascii]
  refine ⟨lineWith pad ++ ascii "x", fun self hself => ?_, fun hfit => ?_⟩
  · rw [init_path_iff, fileLines_last hnewline, if_neg hne, gather_singleton_eq_ok, hrec,
      Except.ok.injEq] at hself
    have hfirst := tupleRecord_lineWith hpad hlen
    have hrest : IP2Location.tupleRecord splitCallback (ascii "x") = .ok [] := by decide +kernel
    refine IP2Location.init_callback_eq_ok.2 ⟨fun buf hbuf hnone => ?_, ⟨[itemAA], ?_, ?_⟩, rfl⟩
    · rw [hpieces] at hbuf
      obtain rfl := List.mem_singleton.1 hbuf
      rw [IP2Location.tupleRecord, hnone] at hfirst
      cases hfirst
    · rw [hpieces, gather_cons_eq_ok]
      exact ⟨_, _, hfirst, gather_singleton_eq_ok.2 hrest, rfl⟩
    · rw [← hself]
      rfl
  · have hlength := hfit (lineWith pad ++ ascii "x") (by
      rw [rawLines_last hnewline, if_neg hne, List.mem_singleton])
    simp [lineWith, ascii, hlen, bufSize] at hlength

end IpLib
end MongoUtils
