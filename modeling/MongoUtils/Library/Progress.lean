import MongoUtils.Library.CriticalSections

/-!
# Progress of a program with a mutex

* `Stuck.owner_eq_none`, `Stuck.sleeps`: in a program that cannot run the mutex is free and every
  unfinished thread is asleep, so that the monitor cannot run either (`Sim.stuck`);
* `Run`: a run with the number of its steps and of its spurious wakeups. Threads with finitely many
  calls make finitely many steps between the spurious wakeups, whatever the scheduler does
  (`Run.length_le`).
-/

namespace Locking

open Monitor

variable {σ κ M V ρ L ι : Type*}

/-- What a call takes and signals does not depend on the type of its result. -/
theorem Procedure.supplies_of_map [DecidableEq κ] {ρ' : Type*} {f : ρ → ρ'}
    {p : Procedure σ κ V ρ} {avail : κ → σ → ℕ} (h : (p.map f).method.Supplies avail) :
    p.method.Supplies avail where
  blocked s k hb := h.blocked s k hb
  body s s' r hb hbody := by
    obtain ⟨x, hx, hr⟩ := Option.map_eq_some_iff.1 hbody
    obtain ⟨rfl, rfl⟩ := Prod.mk.inj hr
    exact h.body s x.1 (f (p.result x.2)) hb (congrArg (Option.map _) hx)

namespace Program

variable [DecidableEq ι] {P : Program σ κ M V ρ L} {f f' : Config σ κ M V ρ L ι}
  {c : Monitor.Config σ κ M ρ L ι}

/-! ### Programs that cannot run -/

/-- The holder of the mutex can run. -/
theorem exists_step_of_holds (ho : P.Orderly f) (hf : f.aborted = false) {i : ι}
    (hi : (f.phase i).holds) : ∃ f', P.Step (.run i) f f' := by
  cases hp : f.phase i with
  | testing =>
    obtain ⟨m, hm⟩ := ho.call hp nofun
    cases hb : (P.procedure m).method.blockedOn f.shared with
    | none => exact ⟨_, .enter hf hp hm hb⟩
    | some k => exact ⟨_, .block hf hp hm hb⟩
  | waiting k => exact ⟨_, .wait hf hp⟩
  | running rest v =>
    cases rest with
    | nil =>
      obtain ⟨m, hm⟩ := ho.call hp nofun
      obtain ⟨ph, hn⟩ := exists_notify .sleeping .relocking (P.procedure m).notify
        (Function.update f.phase i (.leaving ((P.procedure m).result v)))
      exact ⟨_, .notify hf hp hm hn⟩
    | cons st rest =>
      cases hst : st (f.shared, v) with
      | none => exact ⟨_, .abort hf hp hst⟩
      | some x => exact ⟨_, .exec hf hp hst⟩
  | leaving r => exact ⟨_, .unlock hf hp⟩
  | _ =>
    rw [hp] at hi
    cases hi

/-- The mutex is free when no thread can run. -/
theorem Stuck.owner_eq_none (h : P.Stuck f) (ho : P.Orderly f) (hf : f.aborted = false) :
    f.owner = none := by
  rw [Option.eq_none_iff_forall_ne_some]
  intro i hi
  obtain ⟨f', hs⟩ := exists_step_of_holds ho hf ((ho.owner i).1 hi)
  exact h i f' hs

/-- **Every unfinished thread is asleep when no thread can run.** -/
theorem Stuck.sleeps (h : P.Stuck f) (ho : P.Orderly f) (hf : f.aborted = false) (i : ι) :
    P.Finished f i ∨ ∃ k, f.phase i = .sleeping k := by
  have hown := h.owner_eq_none ho hf
  have hlock : lock i f.owner = some (some i, .ok) := by rw [hown]; rfl
  have hfree : (f.phase i).holds = false := by
    have hi := ho.owner i
    rw [hown] at hi
    simpa using hi
  cases hp : f.phase i with
  | outside =>
    cases hm : P.call (f.loc i) with
    | none => exact Or.inl ⟨hp, hm⟩
    | some m => exact absurd (.invoke hf hp hm) (h i _)
  | entering => exact absurd (.lock hf hp hlock) (h i _)
  | sleeping k => exact Or.inr ⟨k, rfl⟩
  | relocking k => exact absurd (.relock hf hp hlock) (h i _)
  | returning r =>
    obtain ⟨m, hm⟩ := ho.call hp nofun
    exact absurd (.respond hf hp hm) (h i _)
  | _ =>
    rw [hp] at hfree
    cases hfree

/-- A thread that runs is not asleep and has not finished. -/
theorem Step.awake {i : ι} (hs : P.Step (.run i) f f') :
    (∀ k, f.phase i ≠ .sleeping k) ∧ (f.phase i = .outside → P.call (f.loc i) ≠ none) := by
  cases hs with
  | invoke _ hp hm =>
    exact ⟨fun k h => (nomatch hp.symm.trans h), fun _ h => (nomatch hm.symm.trans h)⟩
  | lock _ hp _ => exact ⟨fun k h => (nomatch hp.symm.trans h), fun h => (nomatch hp.symm.trans h)⟩
  | block _ hp _ _ => exact ⟨fun k h => (nomatch hp.symm.trans h), fun h => (nomatch hp.symm.trans h)⟩
  | wait _ hp => exact ⟨fun k h => (nomatch hp.symm.trans h), fun h => (nomatch hp.symm.trans h)⟩
  | relock _ hp _ => exact ⟨fun k h => (nomatch hp.symm.trans h), fun h => (nomatch hp.symm.trans h)⟩
  | enter _ hp _ _ => exact ⟨fun k h => (nomatch hp.symm.trans h), fun h => (nomatch hp.symm.trans h)⟩
  | exec _ hp _ => exact ⟨fun k h => (nomatch hp.symm.trans h), fun h => (nomatch hp.symm.trans h)⟩
  | abort _ hp _ => exact ⟨fun k h => (nomatch hp.symm.trans h), fun h => (nomatch hp.symm.trans h)⟩
  | notify _ hp _ _ => exact ⟨fun k h => (nomatch hp.symm.trans h), fun h => (nomatch hp.symm.trans h)⟩
  | unlock _ hp => exact ⟨fun k h => (nomatch hp.symm.trans h), fun h => (nomatch hp.symm.trans h)⟩
  | respond _ hp _ => exact ⟨fun k h => (nomatch hp.symm.trans h), fun h => (nomatch hp.symm.trans h)⟩

theorem stuck_of_sleeps (h : ∀ i, P.Finished f i ∨ ∃ k, f.phase i = .sleeping k) : P.Stuck f := by
  intro i f' hs
  rcases h i with ⟨hp, hm⟩ | ⟨k, hp⟩
  · exact hs.awake.2 hp hm
  · exact hs.awake.1 k hp

/-- **The monitor cannot run when the program cannot**, and has the same object and the same
threads. -/
theorem Sim.stuck [DecidableEq κ] (h : P.Sim f c) (ho : P.Orderly f) (hf : f.aborted = false)
    (hst : P.Stuck f) :
    P.monitor.Stuck c ∧ c.shared = f.shared ∧ c.loc = f.loc ∧
      ∀ i, P.monitor.Finished c i ↔ P.Finished f i := by
  -- Every thread is outside of its calls or asleep.
  have hsleeps := hst.sleeps ho hf
  have hloc : c.loc = f.loc := by
    funext i
    have hi := (h.thread i).loc
    rcases hsleeps i with ⟨hp, -⟩ | ⟨k, hp⟩
    · rw [hp] at hi
      exact hi
    · rw [hp] at hi
      exact hi
  refine ⟨(System.stuck_iff (h.aborted.trans hf)).2 fun i => ?_, h.shared fun i => ?_, hloc,
    fun i => ⟨fun hfin => ?_, fun hfin => ?_⟩⟩
  · rcases hsleeps i with ⟨-, hm⟩ | ⟨k, hp⟩
    · exact Or.inl (by rw [System.Finished, hloc]; exact hm)
    · have hi := (h.thread i).status
      rw [hp] at hi
      exact Or.inr ⟨k, hi⟩
  · rcases hsleeps i with ⟨hp, -⟩ | ⟨k, hp⟩
    · rw [hp]
      rfl
    · rw [hp]
      rfl
  · rw [System.Finished, hloc] at hfin
    rcases hsleeps i with hdone | ⟨k, hp⟩
    · exact hdone
    · obtain ⟨m, hm⟩ := ho.call hp (fun h => by cases h)
      cases hfin.symm.trans hm
  · rw [System.Finished, hloc]
    exact hfin.2

/-- **A thread that can never run again has nothing to wait for**: the condition on which it sleeps
would let no call pass. -/
theorem Stuck.avail_eq_zero [DecidableEq κ] [Fintype ι] {avail : κ → σ → ℕ}
    (hsupply : P.monitor.Supply avail) {s : σ} {loc : ι → L} (hr : P.Reaches (start s loc) f)
    (hf : f.aborted = false) (hst : P.Stuck f) (i : ι) :
    P.Finished f i ∨ ∃ m k, P.call (f.loc i) = some m ∧ f.phase i = .sleeping k ∧
      (P.procedure m).method.waitsOn = some k ∧ avail k f.shared = 0 := by
  have ho := reaches_orderly hr
  obtain ⟨c, hc, hsim⟩ := refines hr
  obtain ⟨hstuck, hshared, hloc, -⟩ := hsim.stuck ho hf hst
  refine (hst.sleeps ho hf i).imp_right ?_
  rintro ⟨k, hp⟩
  have hi := (hsim.thread i).status
  rw [hp] at hi
  obtain ⟨m, hm, hwait⟩ := System.reaches_waitsInCall hc i k (Or.inl hi)
  rw [hloc] at hm
  have hall := (System.stuck_iff (hsim.aborted.trans hf)).1 hstuck
  exact ⟨m, k, hm, hp, hwait, hshared ▸ hsupply.avail_eq_zero hc hall hi⟩

/-! ### Runs come to an end -/

/-- A run of `n` steps and `w` spurious wakeups. -/
inductive Run (P : Program σ κ M V ρ L) :
    ℕ → ℕ → Config σ κ M V ρ L ι → Config σ κ M V ρ L ι → Prop
  | refl {f : Config σ κ M V ρ L ι} : Run P 0 0 f f
  | run {n w : ℕ} {f f' f'' : Config σ κ M V ρ L ι} {i : ι} :
      Run P n w f f' → P.Step (.run i) f' f'' → Run P (n + 1) w f f''
  | spurious {n w : ℕ} {f f' f'' : Config σ κ M V ρ L ι} {i : ι} :
      Run P n w f f' → P.Step (.spurious i) f' f'' → Run P n (w + 1) f f''

theorem Run.reaches {n w : ℕ} (h : P.Run n w f f') : P.Reaches f f' := by
  induction h with
  | refl => exact Relation.ReflTransGen.refl
  | run _ hs ih => exact ih.tail ⟨_, hs⟩
  | spurious _ hs ih => exact ih.tail ⟨_, hs⟩

end Program

/-- A bound on the lines that a thread runs before it sleeps or completes its call, when no body
has more than `B` statements. -/
def Phase.rank (B : ℕ) : Phase σ κ V ρ → ℕ
  | sleeping _ => 0
  | waiting _ => 1
  | running rest _ => rest.length + 1
  | testing => B + 2
  | relocking _ => B + 3
  | entering => B + 3
  | outside => B + 4
  | returning _ => B + 5
  | leaving _ => B + 6

theorem Phase.rank_le {B : ℕ} {p : Phase σ κ V ρ} (h : p.isRunning = false) :
    p.rank B ≤ B + 6 := by
  cases p with
  | running rest v => cases h
  | _ => simp [rank]

namespace Program

variable [DecidableEq ι] [Fintype ι] {P : Program σ κ M V ρ L} {f f' : Config σ κ M V ρ L ι}
  {c : Monitor.Config σ κ M ρ L ι} {B : ℕ} {remaining : L → ℕ}

/-- The calls that are left, and under them the lines. -/
def load (P : Program σ κ M V ρ L) (remaining : L → ℕ) (B : ℕ) (f : Config σ κ M V ρ L ι) : ℕ :=
  (Fintype.card ι * (B + 6) + 1) * ∑ i, remaining (P.after (f.phase i) (f.loc i)) +
    ∑ i, (f.phase i).rank B + if f.aborted then 0 else 1

omit [Fintype ι] in
theorem after_update {i : ι} {p : Phase σ κ V ρ} (hp : p.result? = (f.phase i).result?) (t : ι) :
    P.after (Function.update f.phase i p t) (f.loc t) = P.after (f.phase t) (f.loc t) := by
  rcases eq_or_ne t i with rfl | hti
  · rw [Function.update_self, after, hp, after]
  · rw [Function.update_of_ne hti]

/-- A thread moves on to another line and completes no call. -/
theorem load_update (remaining : L → ℕ) (B : ℕ) {g : Config σ κ M V ρ L ι} {i : ι}
    {p : Phase σ κ V ρ} (hph : g.phase = Function.update f.phase i p) (hab : g.aborted = f.aborted)
    (hafter : ∀ t, P.after (g.phase t) (g.loc t) = P.after (f.phase t) (f.loc t)) :
    P.load remaining B g + (f.phase i).rank B = P.load remaining B f + p.rank B := by
  have hrank := sum_update_add (Phase.rank B) f.phase i p
  rw [load, load, hab, Finset.sum_congr rfl fun t _ => congrArg remaining (hafter t), hph]
  omega

/-- A thread completes a call, and may wake all sleepers. -/
theorem load_notify (hfin : P.monitor.Finite remaining) (B : ℕ) (ho : P.Orderly f)
    (h : P.Sim f c) (hf : f.aborted = false) {i : ι} {m : M} {v : V} {ph : ι → Phase σ κ V ρ}
    (hp : f.phase i = .running [] v) (hm : P.call (f.loc i) = some m)
    (hn : Notified (P.procedure m).notify
      (Function.update f.phase i (.leaving ((P.procedure m).result v))) ph) :
    P.load remaining B { f with phase := ph } < P.load remaining B f := by
  have hi : (f.phase i).holds := by rw [hp]; rfl
  obtain ⟨hb, hbody⟩ := h.body_eq hp hm
  have hself : ph i = .leaving ((P.procedure m).result v) :=
    hn.eq_of (Function.update_self ..) nofun
  have hrest : ∀ t, t ≠ i → (ph t).result? = (f.phase t).result? := fun t hti => by
    rw [hn.result?_eq, Function.update_of_ne hti]
  have hlt : ∑ t, remaining (P.after (ph t) (f.loc t)) <
      ∑ t, remaining (P.after (f.phase t) (f.loc t)) := by
    refine Finset.sum_lt_sum (fun t _ => ?_) ⟨i, Finset.mem_univ i, ?_⟩
    · rcases eq_or_ne t i with rfl | hti
      · rw [hself, hp]
        exact (hfin.resume _ _ _ _ _ hm hb hbody).le
      · rw [after, hrest t hti, after]
    · rw [hself, hp]
      exact hfin.resume _ _ _ _ _ hm hb hbody
  have hrank : ∑ t, (ph t).rank B ≤ Fintype.card ι * (B + 6) := by
    rw [← smul_eq_mul, ← Finset.card_univ]
    refine Finset.sum_le_card_nsmul _ _ _ fun t _ => Phase.rank_le ?_
    -- The thread that has run its body was the only one in a critical section.
    by_contra hrun
    have hholds := Phase.holds_of_isRunning (p := ph t) (by simpa using hrun)
    rw [hn.holds_eq t] at hholds
    rcases eq_or_ne t i with rfl | hti
    · rw [hself] at hrun
      exact hrun rfl
    · rw [Function.update_of_ne hti] at hholds
      exact hti (ho.eq_of_holds hholds hi)
  have hmul := Nat.mul_le_mul_left (Fintype.card ι * (B + 6) + 1) (Nat.succ_le_of_lt hlt)
  rw [Nat.mul_succ] at hmul
  simp only [load, hf]
  omega

/-- **Every step but a spurious wakeup decreases the load.** -/
theorem load_lt (hfin : P.monitor.Finite remaining) (hB : ∀ m, (P.procedure m).body.length ≤ B)
    (ho : P.Orderly f) (h : P.Sim f c) {i : ι} (hs : P.Step (.run i) f f') :
    P.load remaining B f' < P.load remaining B f := by
  -- A line that does not end a call moves its thread to a phase of lower rank.
  have hmove : ∀ {p : Phase σ κ V ρ}, f'.phase = Function.update f.phase i p →
      f'.aborted = f.aborted → f'.loc = f.loc → p.result? = (f.phase i).result? →
      p.rank B < (f.phase i).rank B → P.load remaining B f' < P.load remaining B f := by
    intro p hph hab hloc hres hrank
    have hload := load_update (P := P) remaining B hph hab fun t => by
      rw [hph, hloc]
      exact after_update hres t
    omega
  cases hs with
  | invoke _ hp _ =>
    exact hmove rfl rfl rfl (by rw [hp]; rfl) (by rw [hp]; exact Nat.lt_succ_self _)
  | lock _ hp _ =>
    exact hmove rfl rfl rfl (by rw [hp]; rfl) (by rw [hp]; exact Nat.lt_succ_self _)
  | block _ hp _ _ =>
    refine hmove rfl rfl rfl (by rw [hp]; rfl) ?_
    rw [hp]
    simp [Phase.rank]
  | wait _ hp =>
    have hunlock := ho.unlock_eq (i := i) (by rw [hp]; rfl)
    refine hmove rfl rfl rfl ?_ ?_
    · rw [hp, hunlock]
      rfl
    · rw [hp, hunlock]
      exact Nat.lt_succ_self _
  | relock _ hp _ =>
    exact hmove rfl rfl rfl (by rw [hp]; rfl) (by rw [hp]; exact Nat.lt_succ_self _)
  | @enter _ _ m _ hp _ _ =>
    refine hmove rfl rfl rfl (by rw [hp]; rfl) ?_
    have := hB m
    rw [hp]
    simp only [Phase.rank]
    omega
  | exec _ hp _ =>
    exact hmove rfl rfl rfl (by rw [hp]; rfl) (by rw [hp]; exact Nat.lt_succ_self _)
  | abort hf _ _ => simp [load, hf]
  | notify hf hp hm hn => exact load_notify hfin B ho h hf hp hm hn
  | unlock _ hp =>
    exact hmove rfl rfl rfl (by rw [hp]; rfl) (by rw [hp]; exact Nat.lt_succ_self _)
  | @respond _ _ m r _ hp _ =>
    -- What is left for the thread was counted as after its call already.
    have hload := load_update (P := P) (f := f) (i := i) remaining B (p := .outside)
      (g := { f with
        phase := Function.update f.phase i .outside
        loc := Function.update f.loc i (P.resume (f.loc i) r)
        history := f.history ++ [.respond i m r] }) rfl rfl fun t => by
      rcases eq_or_ne t i with rfl | hti
      · simp only [Function.update_self]
        rw [hp]
        rfl
      · simp only [Function.update_of_ne hti]
    rw [hp] at hload
    simp only [Phase.rank] at hload
    omega

/-- A spurious wakeup costs the woken thread another test. -/
theorem load_le_of_spurious (remaining : L → ℕ) (B : ℕ) {i : ι} (hs : P.Step (.spurious i) f f') :
    P.load remaining B f' ≤ P.load remaining B f + (B + 3) := by
  cases hs with
  | @spurious _ _ k hf hp =>
    have hload := load_update (P := P) (f := f) (i := i) remaining B (p := .relocking k)
      (g := { f with phase := Function.update f.phase i (.relocking k) }) rfl rfl
      (after_update (by rw [hp]; rfl))
    simp only [Phase.rank] at hload
    omega

/-- **A run with `w` spurious wakeups is not longer than the load of its start and `w` times the
lines of a body.** -/
theorem Run.length_le (hfin : P.monitor.Finite remaining)
    (hB : ∀ m, (P.procedure m).body.length ≤ B) {s : σ} {loc : ι → L} {n w : ℕ}
    (hr : P.Run n w (start s loc) f) :
    P.load remaining B f + n ≤ P.load remaining B (start (V := V) (ρ := ρ) s loc) + (B + 3) * w := by
  generalize hstart : start s loc = f₀ at hr
  induction hr with
  | refl => simp
  | @run n w f₀ f f' i hr hs ih =>
    subst hstart
    have hle := ih rfl
    obtain ⟨c, -, hsim⟩ := refines hr.reaches
    have hlt := load_lt hfin hB (reaches_orderly hr.reaches) hsim hs
    omega
  | @spurious n w f₀ f f' i hr hs ih =>
    have hle := ih hstart
    have hspurious := load_le_of_spurious remaining B hs
    rw [Nat.mul_succ]
    omega

/-- **Every run goes on to a configuration in which no thread can run.** -/
theorem Run.exists_stuck (hfin : P.monitor.Finite remaining)
    (hB : ∀ m, (P.procedure m).body.length ≤ B) {s : σ} {loc : ι → L} {n w : ℕ}
    (hr : P.Run n w (start s loc) f) : ∃ n' f', P.Run n' w (start s loc) f' ∧ P.Stuck f' := by
  induction hload : P.load remaining B f using Nat.strong_induction_on generalizing n f with
  | _ k ih =>
    by_cases hst : P.Stuck f
    · exact ⟨n, f, hr, hst⟩
    · simp only [Stuck, not_forall, not_not] at hst
      obtain ⟨i, f', hs⟩ := hst
      obtain ⟨c, -, hsim⟩ := refines hr.reaches
      have hlt := load_lt hfin hB (reaches_orderly hr.reaches) hsim hs
      exact ih _ (hload ▸ hlt) (hr.run hs) rfl

end Program
end Locking
