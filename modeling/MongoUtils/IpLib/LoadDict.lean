import MongoUtils.IpLib.Loaders

/-!
# Which files `LoadDict` survives

`LoadDict` checks nothing: it splits a line at the bars, takes the first three fields unseen, and
hands two of them to `ip2int`, which splits them at the dots. A line can make it read behind a
terminating NUL in three places, or index past the fields.

* `Loadable`: the lines that do neither, if they are free of NULs;
* `EntryOf`: the entry that a line becomes;
* `LoadsExactly`: `LoadDict` survives exactly the files of such lines, where each line is cut at its
  first NUL, and the table holds exactly their entries afterwards;
* `loadDict_exact`: this is so if `split_string` stops at the first NUL of every line;
* `not_loadsExactly`: a line with a NUL that it steps over.
-/

namespace MongoUtils
namespace IpLib

open Fallible

variable {line content : Str} {item : IPItem} {t t' : IPTable}

/-- A line that `LoadDict` survives: it does not end in an odd number of bars, `split_string` finds
three fields in it, and neither of the first two ends in an odd number of dots. -/
structure Loadable (line : Str) : Prop where
  bars : ¬ Odd (trailingRun 124 line)
  three : ∀ fields, splitString line [] 124 = .ok fields → 3 ≤ fields.length
  dots : ∀ fields, splitString line [] 124 = .ok fields →
    ∀ f, fields[0]? = some f ∨ fields[1]? = some f → ¬ Odd (trailingRun 46 f)

/-- `item` is the entry of the line: its bounds are what `ip2int` makes of the first two fields,
modulo `2 ^ 32`, and its country is the third field. -/
def EntryOf (line : Str) (item : IPItem) : Prop :=
  ∃ f0 f1 f2 rest start stop, splitString line [] 124 = .ok (f0 :: f1 :: f2 :: rest) ∧
    ip2int f0 = .ok start ∧ ip2int f1 = .ok stop ∧
    item.start.toNat = start.toNat % 2 ^ 32 ∧ item.stop.toNat = stop.toNat % 2 ^ 32 ∧
    item.country = f2

theorem lineRecord_eq_ok_iff : lineRecord line = .ok [item] ↔ EntryOf line item := by
  rw [lineRecord_eq_ok, record_eq_ok]
  constructor
  · rintro ⟨⟨f0, f1, f2, start, stop, hf, h0, h1, hitem⟩ | ⟨-, hnil⟩, -⟩
    · obtain ⟨rest, hs⟩ := threeFields_eq_some.1 hf
      obtain rfl := List.singleton_inj.1 hitem
      exact ⟨f0, f1, f2, rest, start, stop, hs, h0, h1, toNat_narrow start, toNat_narrow stop, rfl⟩
    · cases hnil
  · rintro ⟨f0, f1, f2, rest, start, stop, hs, h0, h1, hstart, hstop, rfl⟩
    have hitem : item = ⟨narrow start, narrow stop, item.country⟩ := by
      rw [← toNat_narrow, UInt64.toNat_inj] at hstart hstop
      rw [← hstart, ← hstop]
    exact ⟨Or.inl ⟨f0, f1, item.country, start, stop, threeFields_eq_some.2 ⟨rest, hs⟩, h0, h1,
      congrArg (fun i => [i]) hitem⟩, List.cons_ne_nil _ _⟩

/-- A line becomes the entry of what stands before its first NUL, if `split_string` stops there. -/
theorem entryOf_cut (hstop : StopsAtNul 124 line) : EntryOf (cut line) item ↔ EntryOf line item := by
  unfold EntryOf
  rw [splitString_cut (by decide) hstop]

/-- On a field of a line, `ip2int` returns unless an odd number of dots is at the end. -/
theorem ip2int_field (h0 : 0 ∉ line) {fields : List Str}
    (hs : splitString line [] 124 = .ok fields) {f : Str} (hf : f ∈ fields) :
    (∃ v, ip2int f = .ok v) ↔ ¬ Odd (trailingRun 46 f) := by
  rw [← ip2int_error_iff (zero_notMem_of_splitString (by decide) h0 hs hf)]
  cases hip : ip2int f with
  | ok v => exact iff_of_true ⟨v, rfl⟩ (by simp)
  | error e => exact iff_of_false (by simp) (by simp [ip2int_error hip])

/-- **A line without a NUL becomes an entry exactly if it is loadable.** -/
theorem exists_entryOf_iff (h0 : 0 ∉ line) : (∃ item, EntryOf line item) ↔ Loadable line := by
  constructor
  · rintro ⟨item, f0, f1, f2, rest, start, stop, hs, h0', h1, -⟩
    refine ⟨fun hodd => ?_, fun fields hfields => ?_, fun fields hfields f hf => ?_⟩
    · rw [← splitString_error_iff (by decide) h0 [], hs] at hodd
      cases hodd
    · obtain rfl := Except.ok.inj (hs.symm.trans hfields)
      simp
    · obtain rfl := Except.ok.inj (hs.symm.trans hfields)
      simp only [List.getElem?_cons_zero, List.getElem?_cons_succ, Option.some.injEq] at hf
      rcases hf with rfl | rfl
      · exact (ip2int_field h0 hs (by simp)).1 ⟨start, h0'⟩
      · exact (ip2int_field h0 hs (by simp)).1 ⟨stop, h1⟩
  · intro h
    obtain hs | ⟨fields, hs⟩ := splitString_cases line [] 124
    · exact absurd ((splitString_error_iff (by decide) h0 []).1 hs) h.bars
    · match fields, h.three fields hs with
      | f0 :: f1 :: f2 :: rest, _ =>
        obtain ⟨start, h0'⟩ := (ip2int_field h0 hs (by simp)).2 (h.dots _ hs f0 (Or.inl rfl))
        obtain ⟨stop, h1⟩ := (ip2int_field h0 hs (by simp)).2 (h.dots _ hs f1 (Or.inr rfl))
        exact ⟨⟨narrow start, narrow stop, f2⟩, f0, f1, f2, rest, start, stop, hs, h0', h1,
          toNat_narrow start, toNat_narrow stop, rfl⟩

/-- The only thing that can go wrong with a line that has an entry is that the vector is full. -/
theorem loadLine_error (h : EntryOf line item) {e : Fault}
    (he : IPLib.loadLine t line = .error e) : e = .lengthError := by
  obtain ⟨f0, f1, f2, rest, start, stop, hs, h0, h1, -⟩ := h
  simp only [IPLib.loadLine, hs, fieldAt, ok_bind, List.getElem?_cons_zero,
    List.getElem?_cons_succ, h0, h1, IPTable.pushBack] at he
  split_ifs at he
  exact (Except.error.inj he).symm

/-- The table after a successful `LoadDict` holds the entries of the lines. -/
theorem loadDict_entries {lib lib' : IPLib} {file : Option Str} {code : Int32} :
    lib.loadDict file = .ok (lib', code) ↔
      List.Forall₂ EntryOf (dictLines file) lib'.mIpTable.items ∧ code = 0 := by
  rw [loadDict_gather_iff, gather_eq_ok_iff_forall₂ fun _ _ => lineRecord_singleton]
  simp only [lineRecord_eq_ok_iff]

/-! ### Which files -/

/-- The lines of a file, each cut at its first NUL. -/
def cutLines (content : Str) : List Str := (fileLines content).map cut

/-- **Exactly which files `LoadDict` survives, and what it builds.** It returns exactly if every
line is loadable and the vector can hold so many entries; loadable lines make it neither read
behind a NUL nor index past the fields, however many they are. When it returns, the table holds
the entries of the lines, in their order, and nothing else. -/
structure LoadsExactly (lib : IPLib) (content : Str) : Prop where
  returns : (∃ lib', lib.loadDict (some content) = .ok (lib', 0)) ↔
    (∀ l ∈ cutLines content, Loadable l) ∧ (cutLines content).length ≤ maxSize
  fails : (∀ l ∈ cutLines content, Loadable l) →
    ∀ e, lib.loadDict (some content) = .error e → e = .lengthError
  builds : ∀ lib' code, lib.loadDict (some content) = .ok (lib', code) →
    code = 0 ∧ List.Forall₂ EntryOf (cutLines content) lib'.mIpTable.items

theorem forall₂_cutLines (hstop : ∀ l ∈ fileLines content, StopsAtNul 124 l)
    {items : List IPItem} :
    List.Forall₂ EntryOf (fileLines content) items ↔
      List.Forall₂ EntryOf (cutLines content) items := by
  have hcut : ∀ l item, StopsAtNul 124 l ∧ EntryOf (cut l) item ↔ StopsAtNul 124 l ∧ EntryOf l item :=
    fun l item => and_congr_right fun h => entryOf_cut h
  have hline := List.forall₂_and_left (R := EntryOf) (p := StopsAtNul 124) (fileLines content) items
  have hcutLine := List.forall₂_and_left (R := fun l item => EntryOf (cut l) item)
    (p := StopsAtNul 124) (fileLines content) items
  simp only [hcut] at hcutLine
  rw [cutLines, List.forall₂_map_left_iff, ← and_iff_right (b := List.Forall₂ EntryOf _ _) hstop,
    ← hline, hcutLine, and_iff_right hstop]

/-- **No line's first NUL stands directly behind an odd number of bars**: then `LoadDict` does with
the file exactly this. -/
theorem loadDict_exact (lib : IPLib) (content : Str)
    (hstop : ∀ l ∈ fileLines content, StopsAtNul 124 l) : LoadsExactly lib content := by
  -- What stands behind the first NUL of a line does not change its entry.
  have hload : ∀ lib' code, lib.loadDict (some content) = .ok (lib', code) ↔
      List.Forall₂ EntryOf (cutLines content) lib'.mIpTable.items ∧ code = 0 := fun lib' code =>
    loadDict_entries.trans (and_congr_left fun _ => forall₂_cutLines hstop)
  have hall : (∀ l ∈ cutLines content, Loadable l) ↔
      ∃ items, List.Forall₂ EntryOf (cutLines content) items := by
    rw [exists_forall₂_iff]
    refine forall₂_congr fun l hl => ?_
    obtain ⟨line, -, rfl⟩ := List.mem_map.1 hl
    exact (exists_entryOf_iff (zero_notMem_cut line)).symm
  refine ⟨?_, fun hlines e he => ?_, fun lib' code h => ((hload lib' code).1 h).symm⟩
  · simp only [hload, and_true, hall]
    constructor
    · rintro ⟨lib', hlib⟩
      exact ⟨⟨_, hlib⟩, hlib.length_eq ▸ lib'.mIpTable.size_le⟩
    · rintro ⟨⟨items, hitems⟩, hle⟩
      exact ⟨⟨⟨items, hitems.length_eq ▸ hle⟩⟩, hitems⟩
  · obtain ⟨items, hitems⟩ := hall.1 hlines
    have hentries := (forall₂_cutLines hstop).2 hitems
    rw [IPLib.loadDict, bind_eq_error] at he
    rcases he with he | ⟨t, -, he⟩
    · refine foldlM_error (E := (· = .lengthError)) (fun t l hl e' h => ?_) he
      obtain ⟨item, hitem⟩ := exists_forall₂_iff.1 ⟨items, hentries⟩ l hl
      exact loadLine_error hitem h
    · cases he

/-- A NUL at the end of the country does not stand behind a bar. -/
theorem loadDict_exact_country :
    LoadsExactly .new (ascii "1.0.0.0|1.0.0.9|AA" ++ 0 :: ascii "|x\n") :=
  loadDict_exact _ _ (by decide +kernel)

/-- **A line that `LoadDict` should not survive**: up to its NUL it ends in a bar and has two fields.
But `split_string` steps over the NUL, and what is behind it becomes the country. -/
theorem not_loadsExactly :
    ¬ LoadsExactly .new (ascii "1.0.0.0|1.0.0.9|" ++ 0 :: ascii "A|BB\n") := by
  intro h
  have hload : IPLib.new.loadDict (some (ascii "1.0.0.0|1.0.0.9|" ++ 0 :: ascii "A|BB\n")) =
      .ok (⟨.single ⟨0x01000000, 0x01000009, 0 :: ascii "A"⟩⟩, 0) := by decide +kernel
  have hline := (h.returns.1 ⟨_, hload⟩).1 (ascii "1.0.0.0|1.0.0.9|") (by decide +kernel)
  exact hline.bars (by decide +kernel)

end IpLib
end MongoUtils
