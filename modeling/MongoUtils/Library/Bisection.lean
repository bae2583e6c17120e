import MongoUtils.Library.IntervalMap

/-!
# Bisection

A binary search with a three-way comparison, over the indices from `lo` on and below `hi`. The
comparison `side i` says on which side of entry `i` the wanted point lies. Nothing is assumed of
it at first: the search always ends, at an index that compares equal or in a gap between two
indices.

* `bisect`, `probes`: how the search ends, and the indices that it looks at on the way;
* `length_probes_le`: there are at most logarithmically many of them;
* `bisect_eq_gap_iff`: when the search ends in the leftmost gap;
* `Split`: the points to the left of an entry are to the left of all later ones, and conversely.
  Then the search misses nothing (`Split.bisect_eq_gap`);
* `IntervalMap.Sorted`: tables of intervals, possibly overlapping, whose comparison is split.
-/

namespace Bisection

/-- How a search ends: at index `i`, or between the indices `k - 1` and `k`. -/
inductive Outcome
  | found (i : ℕ)
  | gap (k : ℕ)
  deriving DecidableEq

/-- The search over `lo, …, hi - 1`. -/
def bisect (side : ℕ → Ordering) (lo hi : ℕ) : Outcome :=
  if lo < hi then
    match side ((lo + (hi - 1)) / 2) with
    | .lt => bisect side lo ((lo + (hi - 1)) / 2)
    | .eq => .found ((lo + (hi - 1)) / 2)
    | .gt => bisect side ((lo + (hi - 1)) / 2 + 1) hi
  else .gap lo
termination_by hi - lo

/-- The indices that the search looks at. -/
def probes (side : ℕ → Ordering) (lo hi : ℕ) : List ℕ :=
  if lo < hi then
    match side ((lo + (hi - 1)) / 2) with
    | .lt => (lo + (hi - 1)) / 2 :: probes side lo ((lo + (hi - 1)) / 2)
    | .eq => [(lo + (hi - 1)) / 2]
    | .gt => (lo + (hi - 1)) / 2 :: probes side ((lo + (hi - 1)) / 2 + 1) hi
  else []
termination_by hi - lo

variable {side : ℕ → Ordering} {lo hi i k n : ℕ}

/-! ### Any comparison -/

theorem bisect_of_le (h : hi ≤ lo) : bisect side lo hi = .gap lo := by
  rw [bisect, if_neg (not_lt.2 h)]

section Probe

variable (h : lo < hi)

include h

theorem bisect_of_lt (hside : side ((lo + (hi - 1)) / 2) = .lt) :
    bisect side lo hi = bisect side lo ((lo + (hi - 1)) / 2) := by
  rw [bisect, if_pos h, hside]

theorem bisect_of_eq (hside : side ((lo + (hi - 1)) / 2) = .eq) :
    bisect side lo hi = .found ((lo + (hi - 1)) / 2) := by
  rw [bisect, if_pos h, hside]

theorem bisect_of_gt (hside : side ((lo + (hi - 1)) / 2) = .gt) :
    bisect side lo hi = bisect side ((lo + (hi - 1)) / 2 + 1) hi := by
  rw [bisect, if_pos h, hside]

theorem probes_of_lt (hside : side ((lo + (hi - 1)) / 2) = .lt) :
    probes side lo hi = (lo + (hi - 1)) / 2 :: probes side lo ((lo + (hi - 1)) / 2) := by
  rw [probes, if_pos h, hside]

theorem probes_of_eq (hside : side ((lo + (hi - 1)) / 2) = .eq) :
    probes side lo hi = [(lo + (hi - 1)) / 2] := by
  rw [probes, if_pos h, hside]

theorem probes_of_gt (hside : side ((lo + (hi - 1)) / 2) = .gt) :
    probes side lo hi = (lo + (hi - 1)) / 2 :: probes side ((lo + (hi - 1)) / 2 + 1) hi := by
  rw [probes, if_pos h, hside]

end Probe

theorem probes_of_le (h : hi ≤ lo) : probes side lo hi = [] := by
  rw [probes, if_neg (not_lt.2 h)]

/-- **What is found compares equal**, whatever the comparison. -/
theorem side_of_bisect_eq_found (h : bisect side lo hi = .found i) :
    lo ≤ i ∧ i < hi ∧ side i = .eq := by
  fun_induction bisect side lo hi with
  | case1 lo hi hlt hside ih =>
    obtain ⟨h1, h2, h3⟩ := ih h
    exact ⟨h1, by omega, h3⟩
  | case2 lo hi hlt hside =>
    obtain rfl := Outcome.found.inj h
    exact ⟨by omega, by omega, hside⟩
  | case3 lo hi hlt hside ih =>
    obtain ⟨h1, h2, h3⟩ := ih h
    exact ⟨by omega, h2, h3⟩
  | case4 lo hi hlt => cases h

theorem bounds_of_bisect_eq_gap (hle : lo ≤ hi) (h : bisect side lo hi = .gap k) :
    lo ≤ k ∧ k ≤ hi := by
  fun_induction bisect side lo hi with
  | case1 lo hi hlt hside ih =>
    obtain ⟨h1, h2⟩ := ih (by omega) h
    exact ⟨h1, by omega⟩
  | case2 lo hi hlt hside => cases h
  | case3 lo hi hlt hside ih =>
    obtain ⟨h1, h2⟩ := ih (by omega) h
    exact ⟨by omega, h2⟩
  | case4 lo hi hlt =>
    obtain rfl := Outcome.gap.inj h
    exact ⟨le_rfl, hle⟩

/-- **A search takes logarithmically many probes**, whatever the comparison. -/
theorem length_probes_le (lo hi : ℕ) (h : hi - lo < 2 ^ n) : (probes side lo hi).length ≤ n := by
  induction n generalizing lo hi with
  | zero =>
    rw [probes_of_le (by omega)]
    exact le_rfl
  | succ n ih =>
    rw [pow_succ] at h
    by_cases hlt : lo < hi
    · -- Both halves have less than `2 ^ n` indices.
      have hleft := ih lo ((lo + (hi - 1)) / 2) (by omega)
      have hright := ih ((lo + (hi - 1)) / 2 + 1) hi (by omega)
      cases hside : side ((lo + (hi - 1)) / 2) with
      | lt => exact probes_of_lt hlt hside ▸ Nat.succ_le_succ hleft
      | eq => exact probes_of_eq hlt hside ▸ Nat.succ_le_succ (Nat.zero_le n)
      | gt => exact probes_of_gt hlt hside ▸ Nat.succ_le_succ hright
    · rw [probes_of_le (not_lt.1 hlt)]
      exact Nat.zero_le _

/-- The indices that a search looks at while it always goes to the left. -/
def leftmost (lo hi : ℕ) : List ℕ := probes (fun _ => .lt) lo hi

theorem leftmost_of_lt (h : lo < hi) :
    leftmost lo hi = (lo + (hi - 1)) / 2 :: leftmost lo ((lo + (hi - 1)) / 2) :=
  probes_of_lt h rfl

theorem leftmost_of_le (h : hi ≤ lo) : leftmost lo hi = [] := probes_of_le h

/-- **The search ends in the leftmost gap** exactly if the point lies to the left of all entries
that the search looks at on the way there. -/
theorem bisect_eq_gap_iff (hle : lo ≤ hi) :
    bisect side lo hi = .gap lo ↔ ∀ m ∈ leftmost lo hi, side m = .lt := by
  fun_induction bisect side lo hi with
  | case1 lo hi hlt hside ih =>
    rw [leftmost_of_lt hlt, List.forall_mem_cons, ih (by omega)]
    simp [hside]
  | case2 lo hi hlt hside =>
    rw [leftmost_of_lt hlt, List.forall_mem_cons]
    simp [hside]
  | case3 lo hi hlt hside ih =>
    rw [leftmost_of_lt hlt, List.forall_mem_cons]
    refine iff_of_false (fun h => ?_) (by simp [hside])
    have := bounds_of_bisect_eq_gap (by omega) h
    omega
  | case4 lo hi hlt =>
    rw [leftmost_of_le (not_lt.1 hlt)]
    simp

/-! ### Split comparisons -/

/-- Among the indices from `lo` on and below `hi`, a point to the left of an entry is to the left
of all later ones, and a point to the right of an entry is to the right of all earlier ones. -/
structure Split (side : ℕ → Ordering) (lo hi : ℕ) : Prop where
  lt : ∀ i j, lo ≤ i → i ≤ j → j < hi → side i = .lt → side j = .lt
  gt : ∀ i j, lo ≤ i → i ≤ j → j < hi → side j = .gt → side i = .gt

namespace Split

theorem mono {lo' hi' : ℕ} (h : Split side lo hi) (hlo : lo ≤ lo') (hhi : hi' ≤ hi) :
    Split side lo' hi' where
  lt i j hi' hij hj := h.lt i j (by omega) hij (by omega)
  gt i j hi' hij hj := h.gt i j (by omega) hij (by omega)

/-- **A search with a split comparison misses nothing**: the point lies to the right of all that is
before the gap, and to the left of all behind it. -/
theorem bisect_eq_gap (hs : Split side lo hi) (hle : lo ≤ hi) (h : bisect side lo hi = .gap k) :
    (∀ i, lo ≤ i → i < k → side i = .gt) ∧ ∀ i, k ≤ i → i < hi → side i = .lt := by
  fun_induction bisect side lo hi with
  | case1 lo hi hlt hside ih =>
    obtain ⟨hbefore, hbehind⟩ := ih (hs.mono le_rfl (by omega)) (by omega) h
    refine ⟨hbefore, fun i hk hi' => ?_⟩
    by_cases hmid : i < (lo + (hi - 1)) / 2
    · exact hbehind i hk hmid
    · exact hs.lt _ i (by omega) (by omega) hi' hside
  | case2 lo hi hlt hside => cases h
  | case3 lo hi hlt hside ih =>
    obtain ⟨hbefore, hbehind⟩ := ih (hs.mono (by omega) le_rfl) (by omega) h
    refine ⟨fun i hi' hk => ?_, hbehind⟩
    by_cases hmid : (lo + (hi - 1)) / 2 < i
    · exact hbefore i hmid hk
    · exact hs.gt i _ hi' (by omega) (by omega) hside
  | case4 lo hi hlt =>
    obtain rfl := Outcome.gap.inj h
    exact ⟨fun i h1 h2 => by omega, fun i h1 h2 => by omega⟩

end Split

end Bisection

/-! ### Tables of intervals -/

namespace IntervalMap

open Bisection

variable {α β : Type*} [LinearOrder α]

/-- On which side of the interval `x` lies. -/
def Entry.side (e : Entry α β) (x : α) : Ordering :=
  if e.Contains x then .eq else if x < e.lo then .lt else .gt

section Side

variable {e f : Entry α β} {x : α}

theorem Entry.side_eq_iff : e.side x = .eq ↔ e.Contains x := by
  unfold Entry.side
  split_ifs with h1 h2 <;> simp [h1]

theorem Entry.side_lt_iff : e.side x = .lt ↔ x < e.lo := by
  unfold Entry.side
  split_ifs with h1 h2
  · simpa using h1.1
  · simp [h2]
  · simpa using h2

theorem Entry.side_gt_iff : e.side x = .gt ↔ e.lo ≤ x ∧ e.hi < x := by
  unfold Entry.side
  split_ifs with h1 h2
  · simpa using fun _ => h1.2
  · simpa using fun h => absurd h (not_le.2 h2)
  · simpa [not_lt.1 h2] using fun h => h1 ⟨not_lt.1 h2, h⟩

end Side

/-- Both bounds ascend. The intervals may overlap. -/
def Sorted (t : List (Entry α β)) : Prop := t.Pairwise fun e f => e.lo ≤ f.lo ∧ e.hi ≤ f.hi

variable {t : List (Entry α β)} {x : α}

/-- On which side of interval `i` of a table `x` lies. -/
def side (t : List (Entry α β)) (x : α) (i : ℕ) : Ordering :=
  match t[i]? with
  | some e => e.side x
  | none => .lt

theorem side_of_getElem? {i : ℕ} {e : Entry α β} (h : t[i]? = some e) :
    side t x i = e.side x := by
  rw [side, h]

/-- **The comparison with a sorted table is split.** -/
theorem Sorted.split (h : Sorted t) : Split (side t x) 0 t.length := by
  have hle : ∀ i j, i ≤ j → (hj : j < t.length) →
      ∃ e f, t[i]? = some e ∧ t[j]? = some f ∧ e.lo ≤ f.lo ∧ e.hi ≤ f.hi := by
    intro i j hij hj
    refine ⟨t[i], t[j], List.getElem?_eq_getElem _, List.getElem?_eq_getElem _, ?_⟩
    rcases hij.lt_or_eq with hlt | rfl
    · exact List.pairwise_iff_getElem.1 h i j _ hj hlt
    · exact ⟨le_rfl, le_rfl⟩
  refine ⟨fun i j _ hij hj hi => ?_, fun i j _ hij hj hi => ?_⟩ <;>
    obtain ⟨e, f, he, hf, hlo, hhi⟩ := hle i j hij hj
  · rw [side_of_getElem? he, Entry.side_lt_iff] at hi
    rw [side_of_getElem? hf, Entry.side_lt_iff]
    exact hi.trans_le hlo
  · rw [side_of_getElem? hf, Entry.side_gt_iff] at hi
    rw [side_of_getElem? he, Entry.side_gt_iff]
    exact ⟨hlo.trans hi.1, hhi.trans_lt hi.2⟩

/-- **Where the search of a sorted table ends in a gap**, no interval contains the point; and the
gap is the leftmost one exactly if the point lies below all intervals. -/
theorem Sorted.bisect_eq_gap (h : Sorted t) {k : ℕ}
    (hk : bisect (side t x) 0 t.length = .gap k) :
    (∀ e ∈ t, ¬ e.Contains x) ∧ (k = 0 ↔ ∀ e ∈ t, x < e.lo) := by
  obtain ⟨hbefore, hbehind⟩ := h.split.bisect_eq_gap (Nat.zero_le _) hk
  have hk_le := (bounds_of_bisect_eq_gap (Nat.zero_le _) hk).2
  constructor
  · intro e he hcontains
    obtain ⟨i, hi⟩ := List.mem_iff_getElem?.1 he
    have heq : side t x i = .eq := by rwa [side_of_getElem? hi, Entry.side_eq_iff]
    have hlt := (List.getElem?_eq_some_iff.1 hi).1
    by_cases hik : i < k
    · simp [hbefore i (Nat.zero_le _) hik] at heq
    · simp [hbehind i (not_lt.1 hik) hlt] at heq
  · constructor
    · rintro rfl e he
      obtain ⟨i, hi⟩ := List.mem_iff_getElem?.1 he
      have hlt := (List.getElem?_eq_some_iff.1 hi).1
      rw [← Entry.side_lt_iff, ← side_of_getElem? hi]
      exact hbehind i (Nat.zero_le _) hlt
    · intro hall
      by_contra hpos
      have hzero : t[0]? = some t[0] := List.getElem?_eq_getElem (by omega)
      have hgt := hbefore 0 le_rfl (Nat.pos_of_ne_zero hpos)
      rw [side_of_getElem? hzero, Entry.side_gt_iff] at hgt
      exact absurd (hall _ (List.getElem_mem _)) (not_lt.2 hgt.1)

end IntervalMap
