import Mathlib.Tactic

/-!
# A map filled by assignments

`assign pairs` is the map after `m[k] = v;` for one pair `(k, v)` after the other.

* `Latest`: the last value that a key is given;
* `mem_toList_assign`, `toList_assign_pairwise`: an iteration over the map meets the keys with their
  latest values, each key once and in ascending order;
* `eq_toList_assign`: only this list has both properties.
-/

namespace Assignments

variable {κ ν : Type*} [Ord κ] {pairs : List (κ × ν)} {k : κ} {v : ν}

/-- The map after the assignments. -/
def assign (pairs : List (κ × ν)) : Std.TreeMap κ ν compare :=
  pairs.foldl (fun m p => m.insert p.1 p.2) ∅

theorem assign_concat (pairs : List (κ × ν)) (p : κ × ν) :
    assign (pairs ++ [p]) = (assign pairs).insert p.1 p.2 := by
  unfold assign
  rw [List.foldl_append]
  rfl

/-- `v` is the value that `k` is given last. -/
def Latest (pairs : List (κ × ν)) (k : κ) (v : ν) : Prop :=
  ∃ before after, pairs = before ++ (k, v) :: after ∧ ∀ p ∈ after, p.1 ≠ k

omit [Ord κ] in
theorem not_latest_nil : ¬ Latest [] k v := by
  rintro ⟨before, after, h, -⟩
  exact absurd h.symm (by simp)

omit [Ord κ] in
/-- An assignment gives one key a value and leaves those of the others. -/
theorem latest_concat {p : κ × ν} :
    Latest (pairs ++ [p]) k v ↔ p = (k, v) ∨ p.1 ≠ k ∧ Latest pairs k v := by
  constructor
  · rintro ⟨before, after, h, hafter⟩
    rcases List.eq_nil_or_concat after with rfl | ⟨after, q, rfl⟩
    · obtain ⟨-, hp⟩ := List.append_inj' h rfl
      exact Or.inl (List.singleton_inj.1 hp)
    · have hshift : pairs ++ [p] = (before ++ (k, v) :: after) ++ [q] := by simpa using h
      obtain ⟨rfl, hp⟩ := List.append_inj' hshift rfl
      obtain rfl := List.singleton_inj.1 hp
      exact Or.inr ⟨hafter p (by simp), before, after, rfl, fun q hq => hafter q (by simp [hq])⟩
  · rintro (rfl | ⟨hne, before, after, rfl, hafter⟩)
    · exact ⟨pairs, [], rfl, by simp⟩
    · refine ⟨before, after ++ [p], by simp, fun q hq => ?_⟩
      rcases List.mem_append.1 hq with hq | hq
      · exact hafter q hq
      · rw [List.mem_singleton.1 hq]
        exact hne

omit [Ord κ] in
/-- The same assignments to a function: it has the latest values, and those from before elsewhere. -/
theorem foldl_update_iff [DecidableEq κ] {f : κ → ν} :
    pairs.foldl (fun f p => Function.update f p.1 p.2) f k = v ↔
      Latest pairs k v ∨ (∀ p ∈ pairs, p.1 ≠ k) ∧ f k = v := by
  induction pairs using List.reverseRecOn with
  | nil => simp [not_latest_nil]
  | append_singleton pairs p ih =>
    rw [List.foldl_append, List.foldl_cons, List.foldl_nil, latest_concat, List.forall_mem_append,
      List.forall_mem_singleton]
    by_cases hk : p.1 = k
    · subst hk
      simp [Prod.ext_iff]
    · rw [Function.update_of_ne (Ne.symm hk), ih]
      simp [Prod.ext_iff, hk]

/-- The key of `p` is below that of `q`. -/
def Below (p q : κ × ν) : Prop := compare p.1 q.1 = .lt

section Ordered

variable [Std.TransOrd κ]

instance : Std.Irrefl (Below (κ := κ) (ν := ν)) :=
  ⟨fun _ h => Std.OrientedCmp.not_lt_of_lt h h⟩

instance : Std.Antisymm (Below (κ := κ) (ν := ν)) :=
  ⟨fun _ _ h h' => absurd h' (Std.OrientedCmp.not_lt_of_lt h)⟩

/-- **The keys ascend.** -/
theorem toList_assign_pairwise : (assign pairs).toList.Pairwise Below :=
  Std.TreeMap.ordered_keys_toList

end Ordered

section Lawful

variable [Std.TransOrd κ] [Std.LawfulEqOrd κ]

theorem getElem?_assign : (assign pairs)[k]? = some v ↔ Latest pairs k v := by
  induction pairs using List.reverseRecOn with
  | nil => simp [assign, not_latest_nil]
  | append_singleton pairs p ih =>
    rw [assign_concat, Std.TreeMap.getElem?_insert, latest_concat, ← ih]
    by_cases hk : p.1 = k
    · simp [hk, Prod.ext_iff]
    · simp [hk, Prod.ext_iff]

/-- **An iteration over the map meets the keys with their latest values.** -/
theorem mem_toList_assign : (k, v) ∈ (assign pairs).toList ↔ Latest pairs k v := by
  rw [Std.TreeMap.mem_toList_iff_getElem?_eq_some, getElem?_assign]

theorem eq_toList_assign {l : List (κ × ν)} (hsorted : l.Pairwise Below)
    (hmem : ∀ k v, (k, v) ∈ l ↔ Latest pairs k v) : l = (assign pairs).toList := by
  refine hsorted.eq_of_mem_iff toList_assign_pairwise fun p => ?_
  rw [hmem, mem_toList_assign]

end Lawful

end Assignments
