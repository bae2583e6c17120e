import Mathlib.Tactic
import Mathlib.Data.List.TakeWhile
import Mathlib.Data.List.Infix
import Mathlib.Algebra.Ring.Parity

/-!
# `ip_lib/ip_table.h`: `split_string`

A `std::string` is the list of its bytes (`Str`), any of which may be NUL, and `cStr s` is
the memory behind `s.c_str()`: all the bytes, and the NUL that terminates them.

`split_string` walks over this memory with two pointers, `start` and `p`. On a delimiter
it executes `start = ++p`, and the loop header then increments `p` once more, so the byte
behind a recognised delimiter is never examined. If that byte is the terminating NUL, the
next test of `*p` reads past the string; this is the outcome `Fault.readPastNul`. If it is a
NUL inside the string, the scan goes on behind it. At every other NUL the scan stops.

* `scan`, `splitString`: the loop and the function;
* `trailingRun`, `segments`: the maximal run of delimiters at the end of a string and its
  non-empty maximal delimiter-free segments;
* `scan_error_iff`: the scan leaves the string exactly for a trailing run of odd length;
* `scan_of_separated`, `exists_delimiter_of_adjacent`: what is pushed when no two
  delimiters are adjacent, and what goes wrong when two are;
* `StopsAtNul`, `splitString_cut`: the strings of which the scan sees no more than a C
  function would, the bytes up to the first NUL.
-/

namespace MongoUtils

/-- The content of a `std::string`: its bytes. -/
abbrev Str := List UInt8

/-- The bytes of an ASCII literal. -/
def ascii (s : String) : Str := s.toList.map Char.toUInt8

/-- What the C++ code can run into besides returning: a read behind the terminating NUL of
a string, an index past the end of a vector, `std::length_error` from `push_back`, a null
pointer, and a loop that does not stop. With `pendingError` it calls into Python although an
error is set there; what the called function does then is up to Python. -/
inductive Fault
  | readPastNul
  | indexOutOfRange
  | lengthError
  | nullPointer
  | outOfFuel
  | pendingError
  deriving DecidableEq, Repr

namespace IpLib

/-- `s` cut at its first NUL: what a C function sees of it. -/
def cut (s : Str) : Str := s.takeWhile (· ≠ 0)

/-- The memory behind `s.c_str()`: the bytes of `s`, NULs included, and the terminating NUL. -/
def cStr (s : Str) : List UInt8 := s ++ [0]

/-- `if (p != start) result.push_back(std::string(start, p - start));` where `seg` holds the
bytes from `start` up to `p`. -/
def pushSegment (seg : Str) (result : List Str) : List Str :=
  if seg = [] then result else result ++ [seg]

/-- The loop of `split_string`. The memory from `p` on is the list argument, and `seg` holds
the bytes from `start` up to `p`. -/
def scan (delimiter : UInt8) : Str → List UInt8 → List Str → Except Fault (List Str)
  | _, [], _ => .error .readPastNul
  | seg, c :: rest, result =>
      if c = 0 then .ok (pushSegment seg result)
      else if c = delimiter then
        -- `start = ++p` and then the `++p` of the loop header: one byte is skipped
        match rest with
        | [] => .error .readPastNul
        | skipped :: rest => scan delimiter [skipped] rest (pushSegment seg result)
      else scan delimiter (seg ++ [c]) rest result

/-- `split_string(string_list, result, delimiter)`; the value is `result` afterwards. -/
def splitString (stringList : Str) (result : List Str) (delimiter : UInt8) :
    Except Fault (List Str) :=
  scan delimiter [] (cStr stringList) result

example : splitString (ascii "1.22.3") [] 46 = .ok [ascii "1", ascii "22", ascii "3"] := by decide +kernel
example : splitString (ascii "a||b") [] 124 = .ok [ascii "a", ascii "|b"] := by decide +kernel
example : splitString (ascii "a|b|") [] 124 = .error .readPastNul := by decide +kernel
example : splitString (97 :: 124 :: 0 :: ascii "b|c") [] 124 = .ok [ascii "a", 0 :: ascii "b", ascii "c"] := by
  decide +kernel

/-! ### Strings without a NUL -/

theorem cut_of_notMem {s : Str} (h : 0 ∉ s) : cut s = s := by
  rw [cut, List.takeWhile_eq_self_iff]
  intro c hc
  simpa using fun h0 : c = 0 => h (h0 ▸ hc)

theorem zero_notMem_cut (s : Str) : 0 ∉ cut s := by
  intro h
  have := List.mem_takeWhile_imp h
  simp at this

theorem exists_cut_append {s : Str} (h : 0 ∈ s) : ∃ rest, s = cut s ++ 0 :: rest := by
  obtain ⟨before, rest, rfl, hbefore⟩ := List.eq_append_cons_of_mem h
  have hcut : cut (before ++ 0 :: rest) = before := by
    have hne : ∀ c ∈ before, decide (c ≠ 0) := by
      intro c hc
      simpa using fun h0 : c = 0 => hbefore (h0 ▸ hc)
    rw [cut, List.takeWhile_append_of_pos hne]
    simp
  exact ⟨rest, by rw [hcut]⟩

/-! ### One pass through the loop -/

section Scan

variable {d : UInt8}

@[simp] theorem scan_nul (seg : Str) (rest : List UInt8) (result : List Str) :
    scan d seg (0 :: rest) result = .ok (pushSegment seg result) := by
  cases rest <;> simp [scan]

theorem scan_other {c : UInt8} (h0 : c ≠ 0) (hc : c ≠ d) (seg : Str) (rest : List UInt8)
    (result : List Str) :
    scan d seg (c :: rest) result = scan d (seg ++ [c]) rest result := by
  cases rest <;> simp [scan, h0, hc]

theorem scan_delimiter (hd : d ≠ 0) (seg : Str) (skipped : UInt8) (rest : List UInt8)
    (result : List Str) :
    scan d seg (d :: skipped :: rest) result =
      scan d [skipped] rest (pushSegment seg result) := by
  simp [scan, hd]

/-- A delimiter right before the NUL: the loop header steps over the NUL. -/
theorem scan_last_delimiter (hd : d ≠ 0) (seg : Str) (result : List Str) :
    scan d seg [d, 0] result = .error .readPastNul := by
  simp [scan, hd]

theorem pushSegment_eq_append (seg : Str) (result : List Str) :
    pushSegment seg result = result ++ pushSegment seg [] := by
  unfold pushSegment
  split_ifs <;> simp

theorem mem_pushSegment {seg f : Str} : f ∈ pushSegment seg [] ↔ seg ≠ [] ∧ f = seg := by
  unfold pushSegment
  split_ifs with hseg <;> simp [hseg]

/-- The induction behind every fact about the scan: over a NUL-free string, following the
pointer `p`, with one case for each way the loop body can go. -/
theorem scan_induction (hd : d ≠ 0) {motive : Str → Str → Prop}
    (nil : ∀ seg, motive seg [])
    (other : ∀ seg c s, c ≠ 0 → c ≠ d → 0 ∉ s → motive (seg ++ [c]) s → motive seg (c :: s))
    (last : ∀ seg, motive seg [d])
    (delimiter : ∀ seg c s, c ≠ 0 → 0 ∉ s → motive [c] s → motive seg (d :: c :: s)) :
    ∀ (seg s : Str), 0 ∉ s → motive seg s := by
  intro seg s
  -- A delimiter takes the byte behind it along, so the induction is on the length.
  induction hn : s.length using Nat.strong_induction_on generalizing seg s with
  | _ n ih =>
    intro h0
    match s, hn, h0 with
    | [], _, _ => exact nil seg
    | [c], hn, h0 =>
      by_cases hc : c = d
      · exact hc ▸ last seg
      · have hc0 : c ≠ 0 := by rintro rfl; simp at h0
        exact other seg c [] hc0 hc (by simp) (nil _)
    | c :: c' :: s, hn, h0 =>
      simp only [List.mem_cons, not_or] at h0
      obtain ⟨hc0, hc0', hs0⟩ := h0
      simp only [List.length_cons] at hn
      by_cases hc : c = d
      · subst hc
        exact delimiter seg c' s (Ne.symm hc0') hs0 (ih s.length (by omega) [c'] s rfl hs0)
      · refine other seg c (c' :: s) (Ne.symm hc0) hc (by simp [hc0', hs0]) ?_
        exact ih (s.length + 1) (by omega) (seg ++ [c]) (c' :: s) (by simp) (by simp [hc0', hs0])

/-- What is pushed does not depend on what `result` held before. -/
theorem scan_result (seg : Str) (memory : List UInt8) (result : List Str) :
    scan d seg memory result = (scan d seg memory []).map (result ++ ·) := by
  revert result
  refine scan.induct d (fun seg memory _ => ∀ result,
    scan d seg memory result = (scan d seg memory []).map (result ++ ·)) ?_ ?_ ?_ ?_ ?_ seg memory []
  · intro seg _ result
    simp [scan, Except.map]
  · intro seg rest _ result
    rw [scan_nul, scan_nul, pushSegment_eq_append seg result]
    rfl
  · intro seg _ hd result
    simp [scan, hd, Except.map]
  · intro seg _ skipped rest hd ih result
    rw [scan_delimiter hd, scan_delimiter hd, ih (pushSegment seg result), ih (pushSegment seg []),
      pushSegment_eq_append seg result]
    cases scan d [skipped] rest [] <;> simp [Except.map]
  · intro seg c rest _ hc0 hc ih result
    rw [scan_other hc0 hc, scan_other hc0 hc]
    exact ih result

theorem scan_eq_ok_iff {seg : Str} {memory : List UInt8} {result r : List Str} :
    scan d seg memory result = .ok r ↔
      ∃ pushed, scan d seg memory [] = .ok pushed ∧ r = result ++ pushed := by
  rw [scan_result seg memory]
  cases scan d seg memory [] <;> simp [Except.map, eq_comm]

/-- The scan fails in one way only. -/
theorem scan_error {seg : Str} {memory : List UInt8} {result : List Str} {e : Fault}
    (h : scan d seg memory result = .error e) : e = .readPastNul := by
  induction seg, memory, result using scan.induct d with
  | case1 seg result =>
    rw [scan] at h
    exact (Except.error.inj h).symm
  | case2 seg rest result =>
    rw [scan_nul] at h
    cases h
  | case3 seg result hd =>
    simp only [scan, hd, if_false, if_true, Except.error.injEq] at h
    exact h.symm
  | case4 seg result skipped rest hd ih =>
    rw [scan_delimiter hd] at h
    exact ih h
  | case5 seg c rest result hc0 hc ih =>
    rw [scan_other hc0 hc] at h
    exact ih h

end Scan

/-! ### Trailing delimiters -/

/-- The length of the maximal run of delimiters at the end of `s`. -/
def trailingRun (d : UInt8) (s : Str) : ℕ := (s.reverse.takeWhile (· = d)).length

@[simp] theorem trailingRun_nil (d : UInt8) : trailingRun d [] = 0 := rfl

theorem trailingRun_le (d : UInt8) (s : Str) : trailingRun d s ≤ s.length := by
  have := (List.takeWhile_prefix (p := fun c => decide (c = d)) (l := s.reverse)).length_le
  simpa [trailingRun] using this

/-- A byte in front lengthens the trailing run only if it is a delimiter and everything
behind it is one, too. -/
theorem trailingRun_cons (d c : UInt8) (s : Str) :
    trailingRun d (c :: s) =
      if trailingRun d s = s.length ∧ c = d then s.length + 1 else trailingRun d s := by
  unfold trailingRun
  rw [List.reverse_cons, List.takeWhile_append]
  simp only [List.length_reverse]
  split_ifs with h1 h2 h2
  · obtain ⟨-, rfl⟩ := h2
    simp
  · have hc : c ≠ d := fun hc => h2 ⟨h1, hc⟩
    simp [hc, h1]
  · exact absurd h2.1 h1
  · rfl

theorem odd_trailingRun_other {d c : UInt8} (hc : c ≠ d) (s : Str) :
    Odd (trailingRun d (c :: s)) ↔ Odd (trailingRun d s) := by
  simp [trailingRun_cons, hc]

/-- A delimiter and the byte behind it leave the parity of the trailing run alone. -/
theorem odd_trailingRun_delimiter (d c : UInt8) (s : Str) :
    Odd (trailingRun d (d :: c :: s)) ↔ Odd (trailingRun d s) := by
  have hle := trailingRun_le d s
  rw [trailingRun_cons d d (c :: s), trailingRun_cons d c s, List.length_cons]
  by_cases hrun : trailingRun d s = s.length ∧ c = d
  · simp [hrun, Nat.odd_add]
  · have hne : trailingRun d s ≠ s.length + 1 := by omega
    simp [hrun, hne]

/-- **The scan reads past the NUL exactly when the trailing run of delimiters is odd.** -/
theorem scan_error_iff {d : UInt8} (hd : d ≠ 0) (seg s : Str) (h0 : 0 ∉ s) (result : List Str) :
    scan d seg (s ++ [0]) result = .error .readPastNul ↔ Odd (trailingRun d s) := by
  revert result
  refine scan_induction hd (motive := fun seg s => ∀ result,
    scan d seg (s ++ [0]) result = .error .readPastNul ↔ Odd (trailingRun d s)) ?_ ?_ ?_ ?_ seg s h0
  · intro seg result
    simp
  · intro seg c s hc0 hc _ ih result
    rw [List.cons_append, scan_other hc0 hc, odd_trailingRun_other hc]
    exact ih result
  · intro seg result
    simp [scan_last_delimiter hd, trailingRun]
  · intro seg c s _ _ ih result
    rw [List.cons_append, List.cons_append, scan_delimiter hd, odd_trailingRun_delimiter]
    exact ih _

/-- A NUL that does not stand behind a recognised delimiter ends the scan: what is behind it is
not read. -/
theorem scan_stops {d : UInt8} (hd : d ≠ 0) (seg s : Str) (h0 : 0 ∉ s)
    (hstop : ¬ Odd (trailingRun d s)) (rest : List UInt8) (result : List Str) :
    scan d seg (s ++ 0 :: rest) result = scan d seg (s ++ [0]) result := by
  revert hstop result
  refine scan_induction hd (motive := fun seg s => ¬ Odd (trailingRun d s) → ∀ result,
    scan d seg (s ++ 0 :: rest) result = scan d seg (s ++ [0]) result) ?_ ?_ ?_ ?_ seg s h0
  · intro seg _ result
    simp
  · intro seg c s hc0 hc _ ih hstop result
    rw [odd_trailingRun_other hc] at hstop
    rw [List.cons_append, List.cons_append, scan_other hc0 hc, scan_other hc0 hc]
    exact ih hstop result
  · intro seg hstop
    exact absurd (by simp [trailingRun]) hstop
  · intro seg c s _ _ ih hstop result
    rw [odd_trailingRun_delimiter] at hstop
    simp only [List.cons_append]
    rw [scan_delimiter hd, scan_delimiter hd]
    exact ih hstop _

/-! ### Segments -/

/-- The non-empty maximal delimiter-free segments of `s`, in order. -/
def segments (d : UInt8) (s : Str) : List Str := (s.splitOn d).filter (· ≠ [])

/-- No two delimiters of `s` are adjacent, and `s` does not end with one. -/
structure Separated (d : UInt8) (s : Str) : Prop where
  not_adjacent : ¬ [d, d] <:+: s
  not_last : s.getLast? ≠ some d

theorem segments_of_notMem {d : UInt8} {seg : Str} (h : d ∉ seg) :
    segments d seg = pushSegment seg [] := by
  unfold segments pushSegment
  rw [List.splitOn_eq_singleton h]
  split_ifs with hseg <;> simp [hseg]

theorem segments_append {d : UInt8} {seg : Str} (h : d ∉ seg) (s : Str) :
    segments d (seg ++ d :: s) = pushSegment seg [] ++ segments d s := by
  unfold segments pushSegment
  rw [List.splitOn_append_cons_self_of_not_mem h]
  split_ifs with hseg <;> simp [hseg]

theorem notMem_of_mem_splitOn {d : UInt8} {s piece : Str} (h : piece ∈ s.splitOn d) :
    d ∉ piece := by
  induction s generalizing piece with
  | nil =>
    rw [List.splitOn_nil, List.mem_singleton] at h
    simp [h]
  | cons c s ih =>
    rw [List.splitOn_cons_eq_if_modifyHead] at h
    by_cases hc : c = d
    · simp only [hc, beq_self_eq_true, if_true, List.mem_cons] at h
      rcases h with rfl | h
      · simp
      · exact ih h
    · simp only [beq_iff_eq, hc, if_false] at h
      obtain ⟨first, more, hs⟩ := List.exists_cons_of_ne_nil (List.splitOn_ne_nil d s)
      rw [hs, List.modifyHead_cons, List.mem_cons] at h
      rcases h with rfl | h
      · have hfirst : d ∉ first := ih (by simp [hs])
        simpa [Ne.symm hc] using hfirst
      · exact ih (by simp [hs, h])

theorem notMem_of_mem_segments {d : UInt8} {s piece : Str} (h : piece ∈ segments d s) :
    d ∉ piece :=
  notMem_of_mem_splitOn (List.mem_filter.1 h).1

section Separated

variable {d c : UInt8} {s : Str}

theorem separated_nil (d : UInt8) : Separated d [] := ⟨by simp, by simp⟩

theorem adjacent_cons_of_ne (hc : c ≠ d) : [d, d] <:+: c :: s ↔ [d, d] <:+: s := by
  rw [List.infix_cons_iff, List.cons_prefix_cons]
  simp [Ne.symm hc]

theorem Separated.of_cons (h : Separated d (c :: s)) : Separated d s where
  not_adjacent hs := h.not_adjacent (List.infix_cons_iff.2 (Or.inr hs))
  not_last hs := h.not_last (by rw [List.getLast?_cons, hs]; rfl)

theorem Separated.ne_of_delimiter (h : Separated d (d :: c :: s)) : c ≠ d := by
  rintro rfl
  exact h.not_adjacent ⟨[], s, by simp⟩

theorem not_separated_singleton (d : UInt8) : ¬ Separated d [d] :=
  fun h => h.not_last (by simp)

theorem Separated.cons_of_ne (h : Separated d s) (hc : c ≠ d) : Separated d (c :: s) where
  not_adjacent := by
    rw [adjacent_cons_of_ne hc]
    exact h.not_adjacent
  not_last hs := by
    rw [List.getLast?_cons] at hs
    cases hl : s.getLast? with
    | none => simp [hl, hc] at hs
    | some b =>
      simp only [hl, Option.getD_some] at hs
      exact h.not_last (hl.trans hs)

theorem Separated.delimiter_cons (h : Separated d (c :: s)) (hc : c ≠ d) :
    Separated d (d :: c :: s) where
  not_adjacent hs := by
    rw [List.infix_cons_iff, List.cons_prefix_cons, List.cons_prefix_cons] at hs
    rcases hs with ⟨-, hdc, -⟩ | hs
    · exact hc hdc.symm
    · exact h.not_adjacent hs
  not_last hs := by
    rw [List.getLast?_cons_cons] at hs
    exact h.not_last hs

theorem Separated.append {f : Str} (h : Separated d s) (hf : d ∉ f) : Separated d (f ++ s) := by
  induction f with
  | nil => exact h
  | cons c f ih =>
    simp only [List.mem_cons, not_or] at hf
    exact (ih hf.2).cons_of_ne (Ne.symm hf.1)

end Separated

/-- Without adjacent or trailing delimiters, the scan pushes the segments. -/
theorem scan_of_separated {d : UInt8} (hd : d ≠ 0) (seg s : Str) (h0 : 0 ∉ s) (hseg : d ∉ seg)
    (hs : Separated d s) (result : List Str) :
    scan d seg (s ++ [0]) result = .ok (result ++ segments d (seg ++ s)) := by
  revert hseg hs result
  refine scan_induction hd (motive := fun seg s => d ∉ seg → Separated d s → ∀ result,
    scan d seg (s ++ [0]) result = .ok (result ++ segments d (seg ++ s))) ?_ ?_ ?_ ?_ seg s h0
  · intro seg hseg _ result
    rw [List.nil_append, List.append_nil, scan_nul, pushSegment_eq_append, segments_of_notMem hseg]
  · intro seg c s hc0 hc _ ih hseg hs result
    rw [List.cons_append, scan_other hc0 hc, ih (by simp [hseg, Ne.symm hc]) hs.of_cons,
      List.append_assoc, List.singleton_append]
  · intro seg _ hs
    exact absurd hs (not_separated_singleton d)
  · intro seg c s _ _ ih hseg hs result
    have hc : c ≠ d := hs.ne_of_delimiter
    rw [List.cons_append, List.cons_append, scan_delimiter hd,
      ih (by simp [Ne.symm hc]) hs.of_cons.of_cons, segments_append hseg,
      pushSegment_eq_append seg result, List.append_assoc, List.singleton_append]

/-- After two adjacent delimiters, a delimiter ends up inside a pushed string: the second one
of them is the byte that the loop skips. -/
theorem exists_delimiter_of_adjacent {d : UInt8} (hd : d ≠ 0) (seg s : Str) (h0 : 0 ∉ s)
    (hs : d ∈ seg ∨ [d, d] <:+: s) {r : List Str} (hr : scan d seg (s ++ [0]) [] = .ok r) :
    ∃ piece ∈ r, d ∈ piece := by
  revert hs r
  refine scan_induction hd (motive := fun seg s => d ∈ seg ∨ [d, d] <:+: s → ∀ {r},
    scan d seg (s ++ [0]) [] = .ok r → ∃ piece ∈ r, d ∈ piece) ?_ ?_ ?_ ?_ seg s h0
  · intro seg hs r hr
    have hseg : d ∈ seg := by simpa using hs
    rw [List.nil_append, scan_nul, Except.ok.injEq] at hr
    exact ⟨seg, hr ▸ mem_pushSegment.2 ⟨List.ne_nil_of_mem hseg, rfl⟩, hseg⟩
  · intro seg c s hc0 hc _ ih hs r hr
    -- A byte that is no delimiter cannot begin the pair, so the pair lies further on.
    rw [List.cons_append, scan_other hc0 hc] at hr
    refine ih ?_ hr
    rw [adjacent_cons_of_ne hc] at hs
    exact hs.imp (fun h => List.mem_append_left _ h) id
  · intro seg _ r hr
    rw [List.singleton_append, scan_last_delimiter hd] at hr
    cases hr
  · intro seg c s _ h0 ih hs r hr
    rw [List.cons_append, List.cons_append, scan_delimiter hd, scan_eq_ok_iff] at hr
    obtain ⟨rest, hrest, rfl⟩ := hr
    by_cases hseg : d ∈ seg
    · have hmem : seg ∈ pushSegment seg [] := mem_pushSegment.2 ⟨List.ne_nil_of_mem hseg, rfl⟩
      exact ⟨seg, List.mem_append_left _ hmem, hseg⟩
    · -- The pair begins at the delimiter just passed, or it lies further on.
      have hs' : d ∈ [c] ∨ [d, d] <:+: s := by
        have hadj := hs.resolve_left hseg
        rw [List.infix_cons_iff, List.cons_prefix_cons, List.cons_prefix_cons] at hadj
        by_cases hc : c = d
        · exact Or.inl (by simp [hc])
        · rcases hadj with ⟨-, hdc, -⟩ | hadj
          · exact absurd hdc.symm hc
          · exact Or.inr ((adjacent_cons_of_ne hc).1 hadj)
      obtain ⟨piece, hmem, hpiece⟩ := ih hs' hrest
      exact ⟨piece, List.mem_append_right _ hmem, hpiece⟩

/-- The bytes of what the scan pushes are bytes of the string. -/
theorem mem_of_scan {d : UInt8} (hd : d ≠ 0) (seg s : Str) (h0 : 0 ∉ s) {r : List Str}
    (hr : scan d seg (s ++ [0]) [] = .ok r) : ∀ f ∈ r, ∀ c ∈ f, c ∈ seg ++ s := by
  revert r
  refine scan_induction hd (motive := fun seg s => ∀ {r}, scan d seg (s ++ [0]) [] = .ok r →
    ∀ f ∈ r, ∀ c ∈ f, c ∈ seg ++ s) ?_ ?_ ?_ ?_ seg s h0
  · intro seg r hr f hf c hc
    rw [List.nil_append, scan_nul, Except.ok.injEq] at hr
    rw [← hr, mem_pushSegment] at hf
    obtain ⟨-, rfl⟩ := hf
    simpa using hc
  · intro seg b s hb0 hb _ ih r hr f hf c hc
    rw [List.cons_append, scan_other hb0 hb] at hr
    have := ih hr f hf c hc
    rwa [List.append_assoc, List.singleton_append] at this
  · intro seg r hr
    rw [List.singleton_append, scan_last_delimiter hd] at hr
    cases hr
  · intro seg b s _ h0 ih r hr f hf c hc
    rw [List.cons_append, List.cons_append, scan_delimiter hd, scan_eq_ok_iff] at hr
    obtain ⟨rest, hrest, rfl⟩ := hr
    rcases List.mem_append.1 hf with hf | hf
    · obtain ⟨-, rfl⟩ := mem_pushSegment.1 hf
      exact List.mem_append_left _ hc
    · have := ih hrest f hf c hc
      simp only [List.mem_append, List.mem_cons, List.not_mem_nil, or_false] at this ⊢
      tauto

/-- A trailing delimiter that does not throw the scan off the string has one before it. -/
theorem adjacent_of_getLast? {d : UInt8} {s : Str} (hlast : s.getLast? = some d)
    (hodd : ¬ Odd (trailingRun d s)) : [d, d] <:+: s := by
  obtain ⟨t, rfl⟩ := List.getLast?_eq_some_iff.1 hlast
  cases ht : t.getLast? with
  | none =>
    rw [List.getLast?_eq_none_iff] at ht
    exact absurd (by simp [ht, trailingRun]) hodd
  | some b =>
    obtain ⟨u, rfl⟩ := List.getLast?_eq_some_iff.1 ht
    by_cases hb : b = d
    · exact ⟨u, [], by simp [hb]⟩
    · exact absurd (by simp [trailingRun, hb]) hodd

/-! ### `split_string` -/

section SplitString

variable {d : UInt8}

/-- The only fault of `split_string` is the read behind the terminating NUL. -/
theorem splitString_cases (s : Str) (result : List Str) (d : UInt8) :
    splitString s result d = .error .readPastNul ∨ ∃ r, splitString s result d = .ok r := by
  cases h : splitString s result d with
  | error e => exact Or.inl (by rw [scan_error h])
  | ok r => exact Or.inr ⟨r, rfl⟩

theorem splitString_error_iff (hd : d ≠ 0) {s : Str} (h0 : 0 ∉ s) (result : List Str) :
    splitString s result d = .error .readPastNul ↔ Odd (trailingRun d s) :=
  scan_error_iff hd [] s h0 result

theorem splitString_of_separated (hd : d ≠ 0) {s : Str} (h0 : 0 ∉ s) (hs : Separated d s)
    (result : List Str) : splitString s result d = .ok (result ++ segments d s) := by
  have := scan_of_separated hd [] s h0 (by simp) hs result
  rwa [List.nil_append] at this

theorem zero_notMem_of_splitString (hd : d ≠ 0) {s : Str} (h0 : 0 ∉ s) {fields : List Str}
    (h : splitString s [] d = .ok fields) {f : Str} (hf : f ∈ fields) : 0 ∉ f :=
  fun hmem => h0 (mem_of_scan hd [] s h0 h f hf 0 hmem)

theorem separated_of_splitString (hd : d ≠ 0) {s : Str} (h0 : 0 ∉ s) {result : List Str}
    (h : splitString s result d = .ok (result ++ segments d s)) : Separated d s := by
  have hadj : ¬ [d, d] <:+: s := by
    intro hadj
    obtain ⟨pushed, hpushed, heq⟩ := scan_eq_ok_iff.1 h
    obtain ⟨piece, hmem, hpiece⟩ := exists_delimiter_of_adjacent hd [] _ h0 (Or.inr hadj) hpushed
    exact notMem_of_mem_segments (List.append_cancel_left heq ▸ hmem) hpiece
  refine ⟨hadj, fun hlast => hadj (adjacent_of_getLast? hlast ?_)⟩
  rw [← splitString_error_iff hd h0 result, h]
  simp

/-- The first NUL of `s`, if it has one, does not stand directly behind an odd run of
delimiters, so the scan examines it. -/
def StopsAtNul (d : UInt8) (s : Str) : Prop := 0 ∈ s → ¬ Odd (trailingRun d (cut s))

instance (d : UInt8) : DecidablePred (StopsAtNul d) := fun s =>
  inferInstanceAs (Decidable (0 ∈ s → ¬ Odd (trailingRun d (cut s))))

/-- Such a string is split as if it ended at its first NUL. -/
theorem splitString_cut (hd : d ≠ 0) {s : Str} (h : StopsAtNul d s) (result : List Str) :
    splitString (cut s) result d = splitString s result d := by
  by_cases h0 : 0 ∈ s
  · obtain ⟨rest, hs⟩ := exists_cut_append h0
    have := scan_stops hd [] (cut s) (zero_notMem_cut s) (h h0) (rest ++ [0]) result
    rw [splitString, splitString, cStr, cStr, ← this, ← List.cons_append, ← List.append_assoc, ← hs]
  · rw [cut_of_notMem h0]

/-- **Exact behaviour of `split_string`** on a string cut at its first NUL: it reads past the NUL
iff the trailing run of delimiters has odd length, and it appends exactly the segments iff no two
delimiters are adjacent and none is at the end. -/
theorem splitString_exact (s : Str) (d : UInt8) (hd : d ≠ 0) (result : List Str) :
    (splitString (cut s) result d = .error .readPastNul ↔ Odd (trailingRun d (cut s))) ∧
      (splitString (cut s) result d = .ok (result ++ segments d (cut s)) ↔
        ¬ [d, d] <:+: cut s ∧ (cut s).getLast? ≠ some d) := by
  have h0 := zero_notMem_cut s
  refine ⟨splitString_error_iff hd h0 result, fun h => ?_, fun h => ?_⟩
  · have := separated_of_splitString hd h0 h
    exact ⟨this.not_adjacent, this.not_last⟩
  · exact splitString_of_separated hd h0 ⟨h.1, h.2⟩ result

/-- `split_string("|a|b", result, '|')` on an empty `result`: a leading delimiter is harmless. -/
theorem splitString_exact_leading :
    splitString (ascii "|a|b") [] 124 = .ok [ascii "a", ascii "b"] :=
  ((splitString_exact (ascii "|a|b") 124 (by decide) []).2.2 (by decide)).trans (by decide)

theorem notMem_intercalate {c : UInt8} (hc : c ≠ d) {fields : List Str}
    (h : ∀ f ∈ fields, c ∉ f) : c ∉ [d].intercalate fields := by
  induction fields with
  | nil => simp
  | cons f fields ih =>
    simp only [List.mem_cons, forall_eq_or_imp] at h
    cases fields with
    | nil => simpa using h.1
    | cons g fields =>
      rw [List.intercalate_cons_cons]
      simp [h.1, hc, ih h.2]

theorem separated_intercalate {fields : List Str} (hne : ∀ f ∈ fields, f ≠ [])
    (hmem : ∀ f ∈ fields, d ∉ f) : Separated d ([d].intercalate fields) := by
  induction fields with
  | nil => exact separated_nil d
  | cons f fields ih =>
    simp only [List.mem_cons, forall_eq_or_imp] at hne hmem
    cases fields with
    | nil =>
      rw [List.intercalate_singleton, ← List.append_nil f]
      exact (separated_nil d).append hmem.1
    | cons g fields =>
      have hrest := ih hne.2 hmem.2
      obtain ⟨c, g', rfl⟩ := List.exists_cons_of_ne_nil (hne.2 g (by simp))
      have hc : c ≠ d := by
        rintro rfl
        exact hmem.2 (c :: g') (by simp) (by simp)
      rw [List.intercalate_cons_cons, List.append_assoc, List.singleton_append]
      rw [List.intercalate_cons_cons_left] at hrest ⊢
      exact (hrest.delimiter_cons hc).append hmem.1

theorem segments_intercalate {fields : List Str} (hne : ∀ f ∈ fields, f ≠ [])
    (hmem : ∀ f ∈ fields, d ∉ f) : segments d ([d].intercalate fields) = fields := by
  cases fields with
  | nil => rfl
  | cons f fields =>
    rw [segments, List.splitOn_intercalate d hmem (by simp), List.filter_eq_self]
    simpa using hne

/-- Splitting fields that were joined by the delimiter gives the fields back. -/
theorem splitString_intercalate (hd : d ≠ 0) {fields : List Str}
    (hne : ∀ f ∈ fields, f ≠ []) (hmem : ∀ f ∈ fields, d ∉ f) (h0 : ∀ f ∈ fields, 0 ∉ f) :
    splitString ([d].intercalate fields) [] d = .ok fields := by
  have hs := splitString_of_separated hd (notMem_intercalate (Ne.symm hd) h0)
    (separated_intercalate hne hmem) []
  rwa [segments_intercalate hne hmem, List.nil_append] at hs

end SplitString

end IpLib
end MongoUtils
