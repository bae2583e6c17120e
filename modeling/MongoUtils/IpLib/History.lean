import MongoUtils.IpLib.LoadDict

/-!
# `IP2Location` over a history of calls

An `IP2Location` can be initialised again. Without a callback, `IP2Location_init` clears the table,
as `LoadDict` does; with one it pushes behind what is there.

* `Call`, `history`: the calls of a Python program, one after the other;
* `Cleared`: every call that loads an entry is followed by one that clears the table. After a
  history the table is empty exactly if it is so (`history_items_eq_nil`);
* `initReplaces_iff`: an initialisation replaces what the object held exactly if it is without a
  callback or the history is cleared;
* `not_initReplaces`: a second initialisation with a callback that leaves the old ranges in front.
-/

namespace MongoUtils
namespace IpLib
namespace IP2Location

open Fallible

/-- A call of `__init__`, `get_country` or `cleanup`. -/
inductive Call
  | init (dictPath : Option Str) (callback : Option Callback)
  | getCountry (ip : Str)
  | cleanup

namespace Call

/-- The object after the call. -/
def run (self : IP2Location) : Call → Except Fault IP2Location
  | init dictPath callback => (self.init dictPath callback).map Prod.fst
  | getCountry ip => (self.getCountry ip).map Prod.fst
  | cleanup => .ok self.cleanup

/-- The call empties the table before it does anything else to it. -/
def Clears : Call → Prop
  | init _ callback => callback = none
  | getCountry _ => False
  | cleanup => True

/-- The call pushes an entry: the file has a line, or the callback returns a tuple for what `fgets`
delivers of it. -/
def Loads : Call → Prop
  | init dictPath none => dictLines dictPath ≠ []
  | init dictPath (some callback) => ∃ content ∈ dictPath, ∃ buf ∈ pieces content,
      ∃ tuple, callback (cut buf) = .ok (some tuple)
  | getCountry _ => False
  | cleanup => False

end Call

/-- The object after these calls of a new one. -/
def history (calls : List Call) : Except Fault IP2Location := calls.foldlM Call.run new

/-- Every call that loads an entry is followed by one that clears the table. -/
def Cleared : List Call → Prop
  | [] => True
  | c :: later => (c.Loads → ∃ d ∈ later, d.Clears) ∧ Cleared later

/-- Whenever the calls and a further initialisation with these arguments succeed, a new object
initialised with the same arguments is the same. -/
def InitReplaces (calls : List Call) (content : Str) (callback : Option Callback) : Prop :=
  ∀ self self', history calls = .ok self → self.init (some content) callback = .ok (self', 0) →
    new.init (some content) callback = .ok (self', 0)

variable {self self' : IP2Location} {calls : List Call}

/-! ### One call -/

/-- A lookup does not change the object. -/
theorem getCountry_eq_ok {ip : Str} {country : Option Str}
    (h : self.getCountry ip = .ok (self', country)) : self' = self := by
  rw [getCountry, bind_eq_ok] at h
  obtain ⟨⟨lib, code, found⟩, hlib, h⟩ := h
  obtain rfl := IPLib.getCountry_eq_ok hlib
  cases h
  rfl

/-- The entries that a loader with a callback has found are none if the callback has returned no
tuple. -/
theorem gather_tupleRecord_eq_nil {callback : Callback} {bufs : List Str} {items : List IPItem}
    (h : gather (tupleRecord callback) bufs = .ok items) :
    items = [] ↔ ¬ ∃ buf ∈ bufs, ∃ tuple, callback (cut buf) = .ok (some tuple) := by
  rw [gather_eq_nil_iff h]
  constructor
  · rintro hnil ⟨buf, hbuf, tuple, ht⟩
    rcases tupleRecord_eq_ok.1 (hnil buf hbuf) with ⟨_, _, _, _, _, -, -, -, hitems⟩ | ⟨hnone, -⟩
    · cases hitems
    · rw [ht] at hnone
      cases hnone
  · intro hno buf hbuf
    obtain ⟨found, hfound⟩ := exists_ok_of_gather h hbuf
    rcases tupleRecord_eq_ok.1 hfound with ⟨_, _, _, _, _, ht, -⟩ | ⟨-, rfl⟩
    · exact absurd ⟨buf, hbuf, _, ht⟩ hno
    · exact hfound

/-- **What a call does to an empty table**, and to one that is not. -/
theorem run_items_eq_nil {c : Call} (h : c.run self = .ok self') :
    self'.ipLib.mIpTable.items = [] ↔
      ¬ c.Loads ∧ (self.ipLib.mIpTable.items = [] ∨ c.Clears) := by
  cases c with
  | cleanup =>
    cases h
    exact iff_of_true rfl ⟨id, Or.inr trivial⟩
  | getCountry ip =>
    obtain ⟨⟨_, country⟩, hget, rfl⟩ := map_eq_ok.1 h
    rw [getCountry_eq_ok hget]
    simp [Call.Loads, Call.Clears]
  | init dictPath callback =>
    obtain ⟨⟨_, code⟩, hinit, rfl⟩ := map_eq_ok.1 h
    cases callback with
    | none =>
      rw [init, bind_eq_ok] at hinit
      obtain ⟨⟨lib, _⟩, hlib, hinit⟩ := hinit
      cases hinit
      -- The table has one entry for each line, so it is empty if there is no line.
      have hlen := (loadDict_entries.1 hlib).1.length_eq
      rw [← List.length_eq_zero_iff, ← hlen, List.length_eq_zero_iff]
      simp [Call.Loads, Call.Clears]
    | some callback =>
      cases dictPath with
      | none => cases hinit
      | some content =>
        obtain ⟨-, ⟨items, hitems, htable⟩, -⟩ := init_callback_eq_ok.1 hinit
        rw [htable, List.append_eq_nil_iff, gather_tupleRecord_eq_nil hitems]
        simp [Call.Loads, Call.Clears, and_comm]

/-! ### Histories -/

theorem cleared_concat {c : Call} :
    Cleared (calls ++ [c]) ↔ ¬ c.Loads ∧ (Cleared calls ∨ c.Clears) := by
  induction calls with
  | nil => simp [Cleared]
  | cons d calls ih =>
    simp only [List.cons_append, Cleared, ih, List.mem_append, List.mem_singleton, or_and_right,
      exists_or, exists_eq_left]
    by_cases hclears : c.Clears
    · simp [hclears]
    · simp only [hclears, or_false]
      tauto

/-- **After a history, the table is empty exactly if the history is cleared.** -/
theorem history_items_eq_nil (h : history calls = .ok self) :
    self.ipLib.mIpTable.items = [] ↔ Cleared calls := by
  induction calls using List.reverseRecOn generalizing self with
  | nil =>
    cases h
    exact iff_of_true rfl trivial
  | append_singleton calls c ih =>
    rw [history, List.foldlM_append, bind_eq_ok] at h
    obtain ⟨self₀, h₀, h⟩ := h
    rw [List.foldlM_cons, bind_eq_ok] at h
    obtain ⟨self₁, h₁, h⟩ := h
    cases h
    rw [run_items_eq_nil h₁, ih h₀, cleared_concat]

/-- **When an initialisation replaces what the object held**: after any successful history and for
any arguments with which it succeeds, exactly if there is no callback or the history is cleared. -/
theorem initReplaces_iff {content : Str} {callback : Option Callback}
    (hcalls : history calls = .ok self)
    (hinit : self.init (some content) callback = .ok (self', 0)) :
    InitReplaces calls content callback ↔ callback = none ∨ Cleared calls := by
  have hsame : InitReplaces calls content callback ↔
      new.init (some content) callback = .ok (self', 0) := by
    refine ⟨fun h => h self self' hcalls hinit, fun h self₁ self₁' hcalls₁ hinit₁ => ?_⟩
    obtain rfl : self = self₁ := Except.ok.inj (hcalls.symm.trans hcalls₁)
    rw [h, ← hinit, hinit₁]
  rw [hsame, ← history_items_eq_nil hcalls]
  cases callback with
  | none => exact iff_of_true hinit (Or.inl rfl)
  | some callback =>
    obtain ⟨hund, ⟨items, hitems, htable⟩, -⟩ := init_callback_eq_ok.1 hinit
    rw [init_callback_eq_ok, hitems, htable]
    simp [hund, new, IPLib.new, IPTable.empty]

/-! ### Two dictionaries of one range -/

/-- A dictionary of the range from `1.0.0.0` to `1.0.0.255`. -/
def oneRangeText (country : String) : Str := ascii ("1.0.0.0|1.0.0.255|" ++ country ++ "\n")

/-- The object with this range for each of the countries. -/
def ranges (countries : List String) (h : countries.length ≤ maxSize := by decide) :
    IP2Location :=
  ⟨⟨⟨countries.map fun country => ⟨0x01000000, 0x010000FF, ascii country⟩, by simpa using h⟩⟩⟩

/-- Without a callback, an initialisation replaces the dictionary of `AA`. -/
theorem initReplaces_iff_path :
    InitReplaces [.init (some (oneRangeText "AA")) (some splitCallback)] (oneRangeText "BB")
      none := by
  have hcalls : history [.init (some (oneRangeText "AA")) (some splitCallback)] =
      .ok (ranges ["AA"]) := by decide +kernel
  have hinit : (ranges ["AA"]).init (some (oneRangeText "BB")) none = .ok (ranges ["BB"], 0) := by
    decide +kernel
  exact (initReplaces_iff hcalls hinit).2 (Or.inl rfl)

/-- **Initialisations that replace nothing.** Two with the same callback leave every range twice;
and after a dictionary of `AA`, one of `BB` with a callback leaves `AA` in front, and it is still
found. -/
theorem not_initReplaces :
    ¬ InitReplaces [.init (some (oneRangeText "AA")) (some splitCallback)] (oneRangeText "AA")
      (some splitCallback) ∧
    ∃ self self' fresh, history [.init (some (oneRangeText "AA")) none] = .ok self ∧
      self.init (some (oneRangeText "BB")) (some splitCallback) = .ok (self', 0) ∧
      new.init (some (oneRangeText "BB")) (some splitCallback) = .ok (fresh, 0) ∧
      self'.getCountry (ascii "1.0.0.7") = .ok (self', some (ascii "AA")) ∧
      fresh.getCountry (ascii "1.0.0.7") = .ok (fresh, some (ascii "BB")) := by
  constructor
  · intro h
    have hsame := h (ranges ["AA"]) (ranges ["AA", "AA"]) (by decide +kernel) (by decide +kernel)
    exact absurd hsame (by decide +kernel)
  · exact ⟨ranges ["AA"], ranges ["AA", "BB"], ranges ["BB"], by decide +kernel⟩

end IP2Location
end IpLib
end MongoUtils
