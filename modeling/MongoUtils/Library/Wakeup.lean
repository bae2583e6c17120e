import MongoUtils.Library.Monitor

/-!
# Wakeups and termination in a monitor

* `Supply`: how many calls each condition could let pass. `Supply.reaches` is the absence of lost
  wakeups: while a thread sleeps on a condition, at least so many threads are woken from it and
  have not yet tested again. The counting argument follows one signal (`Signalled.wokenCount_lt`)
  and one entry (`wokenCount_update_ready`);
* `stuck_iff`: a configuration has no step when every unfinished thread is asleep, and then no
  sleeper could pass (`Supply.avail_eq_zero`);
* `Finite.exists_stuck`: threads with finitely many calls reach such a configuration from
  everywhere.
-/

namespace Monitor

variable {σ κ M ρ L ι : Type*}

/-- The condition of the waiting loop. -/
def Method.waitsOn (m : Method σ κ ρ) : Option κ := m.wait.map Prod.fst

theorem Method.waitsOn_of_blockedOn {m : Method σ κ ρ} {s : σ} {k : κ}
    (h : m.blockedOn s = some k) : m.waitsOn = some k := by
  unfold blockedOn at h
  unfold waitsOn
  split at h
  · next k' cond hw =>
    split_ifs at h
    rw [hw]
    exact h
  · cases h

/-- `avail k s` calls that wait on `k` could pass in state `s`: none when the method is blocked, and
its body changes the number by at most what it takes for itself and what it signals. -/
structure Method.Supplies [DecidableEq κ] (m : Method σ κ ρ) (avail : κ → σ → ℕ) : Prop where
  blocked : ∀ s k, m.blockedOn s = some k → avail k s = 0
  body : ∀ s s' r, m.blockedOn s = none → m.body s = some (s', r) →
    ∀ k, avail k s' + (if m.waitsOn = some k then 1 else 0) ≤
      avail k s + (if m.notify = some k then 1 else 0)

/-- A method that neither waits nor signals leaves the object as it is. -/
theorem Method.supplies_of_reads [DecidableEq κ] {m : Method σ κ ρ} {avail : κ → σ → ℕ}
    (hwait : m.wait = none) (hnotify : m.notify = none)
    (hreads : ∀ s s' r, m.body s = some (s', r) → s' = s) : m.Supplies avail where
  blocked s k h := by
    rw [blockedOn, hwait] at h
    cases h
  body s s' r _ hbody k := by
    obtain rfl := hreads s s' r hbody
    simp [waitsOn, hwait, hnotify]

/-- The number of threads that are woken from `k` and have not yet tested again. -/
def wokenCount [Fintype ι] [DecidableEq κ] (st : ι → Status κ) (k : κ) : ℕ :=
  (Finset.univ.filter fun i => st i = .woken k).card

section Signals

variable {k j : κ} {st st' : ι → Status κ}

theorem Signalled.asleep_of (h : Signalled k st st') {i : ι} (hi : st' i = .asleep j) :
    st i = .asleep j := by
  rcases h.only i with heq | ⟨-, hw⟩
  · rw [← heq, hi]
  · rw [hw] at hi
    cases hi

theorem Signalled.woken_of (h : Signalled k st st') {i : ι} (hi : st i = .woken j) :
    st' i = .woken j := by
  rcases h.only i with heq | ⟨hs, -⟩
  · rw [heq, hi]
  · rw [hs] at hi
    cases hi

/-- A thread keeps the condition that it waits on. -/
theorem Notified.waits_of {n : Option κ} (h : Notified n st st') {i : ι}
    (hi : st' i = .asleep j ∨ st' i = .woken j) : st i = .asleep j ∨ st i = .woken j := by
  cases n with
  | none => exact (show st' = st from h) ▸ hi
  | some k =>
    rcases (show Signalled k st st' from h).only i with heq | ⟨hs, hw⟩
    · rw [← heq]
      exact hi
    · rw [hw] at hi
      rcases hi with hi | hi
      · cases hi
      · cases hi
        exact Or.inl hs

theorem Notified.asleep_of {n : Option κ} (h : Notified n st st') {i : ι}
    (hi : st' i = .asleep j) : st i = .asleep j := by
  cases n with
  | none => exact (show st' = st from h) ▸ hi
  | some k => exact Signalled.asleep_of h hi

theorem asleep_of_update [DecidableEq ι] {i t : ι} {x : Status κ} (hx : x ≠ .asleep j)
    (h : Function.update st i x t = .asleep j) : st t = .asleep j := by
  by_cases hti : t = i
  · subst hti
    rw [Function.update_self] at h
    exact absurd h hx
  · rwa [Function.update_of_ne hti] at h

/-- A signal that nobody hears. -/
theorem Notified.of_awake (h : ∀ i k, st i ≠ .asleep k) (n : Option κ) : Notified n st st := by
  cases n with
  | none => exact rfl
  | some k => exact ⟨fun i => Or.inl rfl, fun ⟨i, hi⟩ => absurd hi (h i k)⟩

variable [Fintype ι] [DecidableEq κ]

theorem wokenCount_mono (h : ∀ i, st i = .woken j → st' i = .woken j) :
    wokenCount st j ≤ wokenCount st' j := by
  refine Finset.card_le_card fun i hi => ?_
  rw [Finset.mem_filter] at hi ⊢
  exact ⟨hi.1, h i hi.2⟩

/-- A signal that finds a sleeper adds to the woken threads. -/
theorem Signalled.wokenCount_lt (h : Signalled k st st') (hs : ∃ i, st i = .asleep k) :
    wokenCount st k < wokenCount st' k := by
  obtain ⟨i, hi, hw⟩ := h.wakes hs
  refine Finset.card_lt_card (Finset.ssubset_iff_of_subset (fun t ht => ?_) |>.2 ⟨i, ?_, ?_⟩)
  · rw [Finset.mem_filter] at ht ⊢
    exact ⟨ht.1, h.woken_of ht.2⟩
  · exact Finset.mem_filter.2 ⟨Finset.mem_univ i, hw⟩
  · rw [Finset.mem_filter, hi]
    rintro ⟨-, h⟩
    cases h

/-- What the last line of a method adds to the threads woken from a condition that still has a
sleeper. -/
theorem Notified.wokenCount_le {n : Option κ} (h : Notified n st st')
    (hs : ∃ i, st' i = .asleep j) :
    wokenCount st j + (if n = some j then 1 else 0) ≤ wokenCount st' j := by
  obtain ⟨i, hi⟩ := hs
  cases n with
  | none =>
    rw [show st' = st from h]
    simp
  | some k =>
    have hsig : Signalled k st st' := h
    split_ifs with hk
    · cases hk
      exact hsig.wokenCount_lt ⟨i, hsig.asleep_of hi⟩
    · exact wokenCount_mono fun i => hsig.woken_of

/-- A change of one thread that was not woken from `j` loses none that was. -/
theorem wokenCount_update_le [DecidableEq ι] {i : ι} (hi : st i ≠ .woken j) (x : Status κ) :
    wokenCount st j ≤ wokenCount (Function.update st i x) j := by
  refine wokenCount_mono fun t ht => ?_
  have hti : t ≠ i := by
    rintro rfl
    exact hi ht
  rwa [Function.update_of_ne hti]

/-- A thread that begins to run leaves the woken ones. -/
theorem wokenCount_update_ready [DecidableEq ι] (st : ι → Status κ) (i : ι) (j : κ) :
    wokenCount st j ≤
      wokenCount (Function.update st i .ready) j + (if st i = .woken j then 1 else 0) := by
  split_ifs with hi
  · unfold wokenCount
    rw [← Finset.card_erase_add_one (a := i) (Finset.mem_filter.2 ⟨Finset.mem_univ i, hi⟩)]
    refine Nat.add_le_add_right (Finset.card_le_card fun t ht => ?_) 1
    rw [Finset.mem_erase, Finset.mem_filter] at ht
    rw [Finset.mem_filter, Function.update_of_ne ht.1]
    exact ht.2
  · exact wokenCount_update_le hi .ready

end Signals

section Awake

variable [Fintype ι]

/-- The number of threads that are not asleep. -/
def awakeCount (st : ι → Status κ) : ℕ :=
  (Finset.univ.filter fun i => (st i).isAwake).card

theorem awakeCount_le (st : ι → Status κ) : awakeCount st ≤ Fintype.card ι :=
  Finset.card_le_univ _

theorem awakeCount_update_asleep [DecidableEq ι] {st : ι → Status κ} {i : ι}
    (hi : (st i).isAwake) (k : κ) :
    awakeCount (Function.update st i (.asleep k)) < awakeCount st := by
  refine Finset.card_lt_card (Finset.ssubset_iff_of_subset (fun t ht => ?_) |>.2 ⟨i, ?_, ?_⟩)
  · rw [Finset.mem_filter] at ht ⊢
    by_cases hti : t = i
    · subst hti
      rw [Function.update_self] at ht
      exact absurd ht.2 Bool.false_ne_true
    · rwa [Function.update_of_ne hti] at ht
  · exact Finset.mem_filter.2 ⟨Finset.mem_univ i, hi⟩
  · rw [Finset.mem_filter, Function.update_self]
    exact fun h => Bool.false_ne_true h.2

end Awake

namespace System

variable [DecidableEq ι] {sys : System σ κ M ρ L} {c c' : Config σ κ M ρ L ι}

/-- A thread that is asleep on a condition or woken from it is in a method that waits on it. -/
def WaitsInCall (sys : System σ κ M ρ L) (c : Config σ κ M ρ L ι) : Prop :=
  ∀ i k, c.status i = .asleep k ∨ c.status i = .woken k →
    ∃ m, sys.call (c.loc i) = some m ∧ (sys.method m).waitsOn = some k

theorem WaitsInCall.next {a : Action ι} (hc : sys.WaitsInCall c) (hs : sys.Step a c c') :
    sys.WaitsInCall c' := by
  intro i k hi
  cases hs with
  | @wait _ t m k' _ _ hcall hb =>
    dsimp only at hi ⊢
    by_cases hti : i = t
    · subst hti
      rw [Function.update_self] at hi
      obtain rfl : k' = k := by
        rcases hi with hi | hi
        · cases hi
          rfl
        · cases hi
      exact ⟨m, hcall, Method.waitsOn_of_blockedOn hb⟩
    · rw [Function.update_of_ne hti] at hi
      exact hc i k hi
  | @finish _ t m s r st _ _ _ _ _ hst =>
    have hi' := hst.waits_of hi
    dsimp only
    by_cases hti : i = t
    · subst hti
      rw [Function.update_self] at hi'
      rcases hi' with hi' | hi' <;> cases hi'
    · rw [Function.update_of_ne hti] at hi' ⊢
      exact hc i k hi'
  | abort _ _ _ _ _ => exact hc i k hi
  | @spurious _ t k' _ ht =>
    dsimp only at hi ⊢
    by_cases hti : i = t
    · subst hti
      rw [Function.update_self] at hi
      obtain rfl : k' = k := by
        rcases hi with hi | hi
        · cases hi
        · cases hi
          rfl
      exact hc i k' (Or.inl ht)
    · rw [Function.update_of_ne hti] at hi
      exact hc i k hi

theorem reaches_waitsInCall {s : σ} {loc : ι → L} (hr : sys.Reaches (start s loc) c) :
    sys.WaitsInCall c := by
  induction hr with
  | refl =>
    intro i k hi
    rcases hi with hi | hi <;> cases hi
  | tail _ hs ih => exact ih.next hs.choose_spec

section Supplies

variable [DecidableEq κ]

/-- In every method, `avail k s` calls that wait on `k` could pass in state `s`. -/
def Supply (sys : System σ κ M ρ L) (avail : κ → σ → ℕ) : Prop :=
  ∀ m, (sys.method m).Supplies avail

variable [Fintype ι] {avail : κ → σ → ℕ}

/-- No wakeup is lost: while a thread sleeps on `k`, the calls that could pass are not more than
the threads already woken from `k`. -/
def Covered (avail : κ → σ → ℕ) (c : Config σ κ M ρ L ι) : Prop :=
  ∀ k, (∃ i, c.status i = .asleep k) → avail k c.shared ≤ wokenCount c.status k

theorem Supply.next (h : sys.Supply avail) {a : Action ι} (hw : sys.WaitsInCall c)
    (hc : Covered avail c) (hs : sys.Step a c c') : Covered avail c' := by
  intro j hj
  cases hs with
  | @wait _ i m k _ _ hcall hb =>
    by_cases hkj : k = j
    · -- The thread goes to sleep because nothing is available.
      subst hkj
      show avail k c.shared ≤ _
      rw [(h m).blocked c.shared k hb]
      exact Nat.zero_le _
    · obtain ⟨t, ht⟩ := hj
      have hold := asleep_of_update (fun h => hkj (Status.asleep.inj h)) ht
      refine (hc j ⟨t, hold⟩).trans (wokenCount_update_le (fun hi => ?_) _)
      -- A thread that was woken from `j` is in a method that waits on `j` alone.
      obtain ⟨m', hm', hwait⟩ := hw i j (Or.inr hi)
      obtain rfl : m = m' := Option.some.inj (hcall.symm.trans hm')
      exact hkj (Option.some.inj ((Method.waitsOn_of_blockedOn hb).symm.trans hwait))
  | @finish _ i m s r st _ _ hcall hb hbody hst =>
    have hold : ∃ t, c.status t = .asleep j := by
      obtain ⟨t, ht⟩ := hj
      exact ⟨t, asleep_of_update (fun h => by cases h) (hst.asleep_of ht)⟩
    have hwoken : (if c.status i = .woken j then 1 else 0) ≤
        if (sys.method m).waitsOn = some j then 1 else 0 := by
      split_ifs with h1 h2
      · exact le_rfl
      · obtain ⟨m', hm', hwait⟩ := hw i j (Or.inr h1)
        obtain rfl : m = m' := Option.some.inj (hcall.symm.trans hm')
        exact absurd hwait h2
      · exact Nat.zero_le _
      · exact le_rfl
    -- A woken thread pays for its own call, and the signal for what the call makes available.
    have hsupply := (h m).body c.shared s r hb hbody j
    have hcover := hc j hold
    have hleave := wokenCount_update_ready c.status i j
    have hsignal := hst.wokenCount_le hj
    show avail j s ≤ wokenCount st j
    omega
  | abort _ _ _ _ _ => exact hc j hj
  | @spurious _ i k _ hi =>
    obtain ⟨t, ht⟩ := hj
    have hold := asleep_of_update (fun h => by cases h) ht
    refine (hc j ⟨t, hold⟩).trans (wokenCount_update_le ?_ _)
    rw [hi]
    exact fun h => by cases h

/-- **No wakeup is lost in any reachable configuration.** -/
theorem Supply.reaches (h : sys.Supply avail) {s : σ} {loc : ι → L}
    (hr : sys.Reaches (start s loc) c) : Covered avail c := by
  induction hr with
  | refl =>
    rintro k ⟨i, hi⟩
    cases hi
  | tail hr hs ih => exact h.next (reaches_waitsInCall hr) ih hs.choose_spec

omit [DecidableEq ι] in
/-- Nobody is woken when every unfinished thread is asleep. -/
theorem AllAsleep.wokenCount_eq_zero (ha : sys.AllAsleep c) (hw : sys.WaitsInCall c) (k : κ) :
    wokenCount c.status k = 0 := by
  refine Finset.card_eq_zero.2 (Finset.filter_eq_empty_iff.2 fun i _ hi => ?_)
  obtain ⟨m, hm, -⟩ := hw i k (Or.inr hi)
  rcases ha i with hfin | ⟨k', hk'⟩
  · rw [Finished, hm] at hfin
    cases hfin
  · rw [hi] at hk'
    cases hk'

/-- **A sleeper has nothing to sleep through** when every unfinished thread is asleep. -/
theorem Supply.avail_eq_zero (h : sys.Supply avail) {s : σ} {loc : ι → L}
    (hr : sys.Reaches (start s loc) c) (ha : sys.AllAsleep c) {i : ι} {k : κ}
    (hi : c.status i = .asleep k) : avail k c.shared = 0 := by
  have := h.reaches hr k ⟨i, hi⟩
  rw [ha.wokenCount_eq_zero (reaches_waitsInCall hr)] at this
  omega

end Supplies

/-! ### Configurations without a step -/

/-- **A configuration is stuck when every unfinished thread is asleep.** -/
theorem stuck_iff [DecidableEq κ] (hc : c.aborted = false) : sys.Stuck c ↔ sys.AllAsleep c := by
  constructor
  · intro h i
    by_contra hi
    rw [not_or, ← Status.isAwake_iff] at hi
    obtain ⟨hfin, hawake⟩ := hi
    -- A thread that is awake in a call can go to sleep, fail its assertion or return.
    obtain ⟨m, hm⟩ := Option.ne_none_iff_exists'.1 hfin
    cases hb : (sys.method m).blockedOn c.shared with
    | some k => exact h i _ (.wait hc hawake hm hb)
    | none =>
      cases hbody : (sys.method m).body c.shared with
      | none => exact h i _ (.abort hc hawake hm hb hbody)
      | some p =>
        obtain ⟨st, hst⟩ := exists_notify .asleep .woken (sys.method m).notify
          (Function.update c.status i .ready)
        exact h i _ (.finish hc hawake hm hb hbody hst)
  · intro h i c' hs
    have hno : ∀ m, sys.call (c.loc i) = some m → (c.status i).isAwake → False := by
      intro m hm hawake
      rcases h i with hfin | hasleep
      · rw [Finished, hm] at hfin
        cases hfin
      · exact Status.isAwake_iff.1 hawake hasleep
    cases hs with
    | wait _ hawake hm _ => exact hno _ hm hawake
    | finish _ hawake hm _ _ _ => exact hno _ hm hawake
    | abort _ hawake hm _ _ => exact hno _ hm hawake

section Termination

variable [Fintype ι]

/-- `remaining` decreases with every call that a thread completes. -/
structure Finite (sys : System σ κ M ρ L) (remaining : L → ℕ) : Prop where
  resume : ∀ l m s s' r, sys.call l = some m → (sys.method m).blockedOn s = none →
    (sys.method m).body s = some (s', r) → remaining (sys.resume l r) < remaining l

variable {remaining : L → ℕ}

/-- The calls that are left, and under them the threads that are not asleep: a completed call may
wake every sleeper. -/
def work (remaining : L → ℕ) (c : Config σ κ M ρ L ι) : ℕ :=
  (Fintype.card ι + 1) * ∑ i, remaining (c.loc i) + awakeCount c.status +
    if c.aborted then 0 else 1

theorem Finite.work_lt (h : sys.Finite remaining) {i : ι} (hs : sys.Step (.run i) c c') :
    work remaining c' < work remaining c := by
  cases hs with
  | @wait _ _ _ k _ hawake _ _ =>
    exact Nat.add_lt_add_right (Nat.add_lt_add_left (awakeCount_update_asleep hawake k) _) _
  | @finish _ _ m s r st hc _ hcall hb hbody _ =>
    have hsum : ∑ t, remaining (Function.update c.loc i (sys.resume (c.loc i) r) t) <
        ∑ t, remaining (c.loc t) := by
      refine Finset.sum_lt_sum (fun t _ => ?_) ⟨i, Finset.mem_univ i, ?_⟩
      · by_cases hti : t = i
        · subst hti
          rw [Function.update_self]
          exact (h.resume _ _ _ _ _ hcall hb hbody).le
        · rw [Function.update_of_ne hti]
      · rw [Function.update_self]
        exact h.resume _ _ _ _ _ hcall hb hbody
    have hmul := Nat.mul_le_mul_left (Fintype.card ι + 1) (Nat.succ_le_of_lt hsum)
    have hawake := awakeCount_le st
    rw [Nat.mul_succ] at hmul
    simp only [work, hc]
    omega
  | abort hc _ _ _ _ =>
    simp [work, hc]

/-- **Every configuration reaches a stuck one.** -/
theorem Finite.exists_stuck (h : sys.Finite remaining) (c : Config σ κ M ρ L ι) :
    ∃ c', sys.Reaches c c' ∧ sys.Stuck c' := by
  induction hn : work remaining c using Nat.strong_induction_on generalizing c with
  | _ n ih =>
    by_cases hst : sys.Stuck c
    · exact ⟨c, Relation.ReflTransGen.refl, hst⟩
    · simp only [Stuck, not_forall, not_not] at hst
      obtain ⟨i, c₁, hs⟩ := hst
      obtain ⟨c', hr, hst'⟩ := ih _ (hn ▸ h.work_lt hs) c₁ rfl
      exact ⟨c', Relation.ReflTransGen.head ⟨_, hs⟩ hr, hst'⟩

end Termination

end System
end Monitor
