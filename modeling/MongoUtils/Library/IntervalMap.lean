import Mathlib.Order.Basic
import Mathlib.Data.List.Pairwise
import Mathlib.Tactic

/-!
# Tables of intervals

A table of closed intervals over a linear order, each with a value. Seen from outside, such
a table is a partial function from points to values (`lookup`, the first interval that
contains the point). In an ascending table at most one interval contains a given point, and
comparing the point with the bounds of any one interval tells on which side of it the
containing one can be; this is all that a binary search needs.
-/

namespace IntervalMap

variable {α β : Type*} [LinearOrder α]

/-- A closed interval with a value. It is empty if `hi < lo`. -/
structure Entry (α β : Type*) where
  lo : α
  hi : α
  val : β

/-- `x` lies in the interval. -/
def Entry.Contains (e : Entry α β) (x : α) : Prop := e.lo ≤ x ∧ x ≤ e.hi

instance (e : Entry α β) (x : α) : Decidable (e.Contains x) :=
  inferInstanceAs (Decidable (e.lo ≤ x ∧ x ≤ e.hi))

/-- The intervals are not empty, and each of them ends before the later ones begin. -/
structure Ascending (t : List (Entry α β)) : Prop where
  le : ∀ e ∈ t, e.lo ≤ e.hi
  lt : t.Pairwise fun e f => e.hi < f.lo

/-- The value of the first interval that contains `x`. -/
def lookup (t : List (Entry α β)) (x : α) : Option β :=
  (t.find? fun e => decide (e.Contains x)).map Entry.val

variable {t : List (Entry α β)} {x : α} {i j : ℕ} {e f : Entry α β}

theorem lookup_eq_none (h : ∀ e ∈ t, ¬ e.Contains x) : lookup t x = none := by
  rw [lookup, Option.map_eq_none_iff, List.find?_eq_none]
  simpa using h

namespace Ascending

theorem hi_lt_lo (h : Ascending t) (he : t[i]? = some e) (hf : t[j]? = some f) (hij : i < j) :
    e.hi < f.lo := by
  obtain ⟨hi, rfl⟩ := List.getElem?_eq_some_iff.1 he
  obtain ⟨hj, rfl⟩ := List.getElem?_eq_some_iff.1 hf
  exact List.pairwise_iff_getElem.1 h.lt i j hi hj hij

/-- A point below interval `i` can only be contained in an earlier one. -/
theorem index_lt (h : Ascending t) (he : t[i]? = some e) (hf : t[j]? = some f)
    (hx : x < e.lo) (hfx : f.Contains x) : j < i := by
  by_contra hij
  rcases (not_lt.1 hij).lt_or_eq with hlt | rfl
  · have hlo : e.lo < f.lo :=
      (h.le e (List.mem_of_getElem? he)).trans_lt (h.hi_lt_lo he hf hlt)
    exact absurd (hx.trans hlo) (not_lt.2 hfx.1)
  · rw [he, Option.some.injEq] at hf
    exact absurd hx (not_lt.2 (hf ▸ hfx.1))

/-- A point above interval `i` can only be contained in a later one. -/
theorem lt_index (h : Ascending t) (he : t[i]? = some e) (hf : t[j]? = some f)
    (hx : e.hi < x) (hfx : f.Contains x) : i < j := by
  by_contra hij
  rcases (not_lt.1 hij).lt_or_eq with hlt | rfl
  · have hhi : f.hi < e.hi :=
      (h.hi_lt_lo hf he hlt).trans_le (h.le e (List.mem_of_getElem? he))
    exact absurd (hhi.trans hx) (not_lt.2 hfx.2)
  · rw [he, Option.some.injEq] at hf
    exact absurd hx (not_lt.2 (hf ▸ hfx.2))

/-- At most one interval contains a point. -/
theorem index_unique (h : Ascending t) (he : t[i]? = some e) (hf : t[j]? = some f)
    (hex : e.Contains x) (hfx : f.Contains x) : i = j := by
  rcases lt_trichotomy i j with hlt | heq | hgt
  · exact absurd (hex.2.trans_lt (h.hi_lt_lo he hf hlt)) (not_lt.2 hfx.1)
  · exact heq
  · exact absurd (hfx.2.trans_lt (h.hi_lt_lo hf he hgt)) (not_lt.2 hex.1)

/-- The lookup finds the interval that contains the point. -/
theorem lookup_eq_some (h : Ascending t) (he : t[i]? = some e) (hx : e.Contains x) :
    lookup t x = some e.val := by
  have hmem := List.mem_of_getElem? he
  have hsome : (t.find? fun e => decide (e.Contains x)).isSome :=
    List.find?_isSome.2 ⟨e, hmem, by simpa using hx⟩
  obtain ⟨f, hf⟩ := Option.isSome_iff_exists.1 hsome
  have hdec := List.find?_some hf
  have hfx : f.Contains x := of_decide_eq_true hdec
  obtain ⟨j, hj⟩ := List.mem_iff_getElem?.1 (List.mem_of_find?_eq_some hf)
  obtain rfl := h.index_unique he hj hx hfx
  rw [he, Option.some.injEq] at hj
  rw [lookup, hf, hj]
  rfl

end Ascending

end IntervalMap
