import MongoUtils.Library.Locking

/-!
# Critical sections in one step

`Monitor.System` takes a critical section in one step, `Locking.Program` in many. `Sim` relates the
two: the monitor is where the program is, but for the body that a thread is running. The monitor
steps when a thread has tested and goes to sleep, when it has run the body and signals, and when it
wakes up for no reason; at the other lines it stays where it is (`Sim.next`).

* `refines`: every configuration that the program reaches is related to one that the monitor
  reaches, and the log of the monitor explains the calls and returns of the program (`Linearizes`).
-/

namespace Locking

open Monitor

variable {σ κ M V ρ L ι : Type*}

namespace Program

variable [DecidableEq ι] {P : Program σ κ M V ρ L} {f f' : Config σ κ M V ρ L ι}

/-- One thread with its local state `l`, and with its status and its local state `l'` in the
monitor. -/
structure Thread (P : Program σ κ M V ρ L) (H : List (Mark ι M ρ)) (log : List (Event ι M ρ))
    (i : ι) (p : Phase σ κ V ρ) (l : L) (st : Status κ) (l' : L) : Prop where
  status : p.Matches st
  loc : l' = P.after p l
  returned : own i log = returned i H ++
    ((P.call l).bind fun m => p.result?.map fun r => ⟨i, m, r⟩).toList
  invoked : invoked i H = (own i log).map Event.call ++
    if p.isPending then (P.call l).toList else []

/-- What is left of the body takes the object `s` to where the whole body takes `s₀`. -/
def Running (P : Program σ κ M V ρ L) (s₀ s : σ) (l : L) (rest : List (Statement σ V)) (v : V) :
    Prop :=
  ∃ m, P.call l = some m ∧ (P.procedure m).method.blockedOn s₀ = none ∧
    exec (P.procedure m).body (s₀, (P.procedure m).init) = exec rest (s, v)

/-- The monitor `c` is where the program is, but for the body that a thread is running. -/
structure Sim (P : Program σ κ M V ρ L) (f : Config σ κ M V ρ L ι)
    (c : Monitor.Config σ κ M ρ L ι) : Prop where
  aborted : c.aborted = f.aborted
  thread : ∀ i, Thread P f.history c.log i (f.phase i) (f.loc i) (c.status i) (c.loc i)
  running : ∀ i rest v, f.phase i = .running rest v → P.Running c.shared f.shared (f.loc i) rest v
  shared : (∀ i, (f.phase i).isRunning = false) → c.shared = f.shared
  history : Linearizes c.log f.history

variable {c : Monitor.Config σ κ M ρ L ι}

/-- What a thread has called and got back follows the log, whatever the others do. -/
theorem Thread.prefixes {H : List (Mark ι M ρ)} {log : List (Event ι M ρ)} {i : ι}
    {p : Phase σ κ V ρ} {l l' : L} {st : Status κ} (h : P.Thread H log i p l st l') :
    Locking.returned i H <+: own i log ∧
      (own i log).map Event.call <+: Locking.invoked i H := by
  constructor
  · rw [h.returned]
    exact List.prefix_append _ _
  · rw [h.invoked]
    exact List.prefix_append _ _

/-- The thread moves on to another line, outside the body. -/
theorem Thread.move {H : List (Mark ι M ρ)} {log : List (Event ι M ρ)} {i : ι}
    {p p' : Phase σ κ V ρ} {l l' : L} {st st' : Status κ} (h : P.Thread H log i p l st l')
    (hst : p'.Matches st') (hres : p'.result? = p.result?) (hpend : p'.isPending = p.isPending) :
    P.Thread H log i p' l st' l' := by
  refine ⟨hst, ?_, ?_, ?_⟩
  · rw [after, hres, h.loc, after]
  · rw [hres]
    exact h.returned
  · rw [hpend]
    exact h.invoked

/-- Another thread runs a body. -/
theorem Thread.of_ne {H : List (Mark ι M ρ)} {log : List (Event ι M ρ)} {i t : ι} (hti : t ≠ i)
    {p p' : Phase σ κ V ρ} {l l' : L} {st st' : Status κ} (h : P.Thread H log i p l st l')
    (hst : p'.Matches st') (hres : p'.result? = p.result?) (hpend : p'.isPending = p.isPending)
    (m : M) (r : ρ) :
    P.Thread H (log ++ [⟨t, m, r⟩]) i p' l st' l' := by
  have hmove := h.move hst hres hpend
  refine ⟨hmove.status, hmove.loc, ?_, ?_⟩
  · rw [own_append_of_ne hti]
    exact hmove.returned
  · rw [own_append_of_ne hti]
    exact hmove.invoked

theorem isRunning_update {ph : ι → Phase σ κ V ρ} {i : ι} {p : Phase σ κ V ρ}
    (hrun : (ph i).isRunning = false) (hrun' : p.isRunning = false) (t : ι) :
    (Function.update ph i p t).isRunning = (ph t).isRunning := by
  rcases eq_or_ne t i with rfl | hti
  · rw [Function.update_self, hrun, hrun']
  · rw [Function.update_of_ne hti]

theorem running_of_update {ph : ι → Phase σ κ V ρ} {i t : ι} {p : Phase σ κ V ρ}
    (hrun' : p.isRunning = false) {rest : List (Statement σ V)} {v : V}
    (h : Function.update ph i p t = .running rest v) : ph t = .running rest v := by
  rcases eq_or_ne t i with rfl | hti
  · rw [Function.update_self] at h
    rw [h] at hrun'
    cases hrun'
  · rwa [Function.update_of_ne hti] at h

/-- A thread moves on to another line, outside the body. -/
theorem Sim.move (h : P.Sim f c) {i : ι} {p : Phase σ κ V ρ} {st : Status κ} (o : Option ι)
    (b : Bool) (hrun : (f.phase i).isRunning = false) (hrun' : p.isRunning = false)
    (hst : p.Matches st) (hres : p.result? = (f.phase i).result?)
    (hpend : p.isPending = (f.phase i).isPending) :
    P.Sim { f with owner := o, phase := Function.update f.phase i p, failed := b }
      { c with status := Function.update c.status i st } := by
  refine ⟨h.aborted, fun t => ?_,
    fun t rest v ht => h.running t rest v (running_of_update hrun' ht),
    fun hno => h.shared fun t => (isRunning_update hrun hrun' t).symm.trans (hno t), h.history⟩
  rcases eq_or_ne t i with rfl | hti
  · simp only [Function.update_self]
    exact (h.thread t).move hst hres hpend
  · simp only [Function.update_of_ne hti]
    exact h.thread t

/-- The same while the monitor stays where it is. -/
theorem Sim.stay (h : P.Sim f c) {i : ι} {p : Phase σ κ V ρ} (o : Option ι) (b : Bool)
    (hrun : (f.phase i).isRunning = false) (hrun' : p.isRunning = false)
    (hst : p.Matches (c.status i)) (hres : p.result? = (f.phase i).result?)
    (hpend : p.isPending = (f.phase i).isPending) :
    P.Sim { f with owner := o, phase := Function.update f.phase i p, failed := b } c := by
  have hmove := h.move o b hrun hrun' hst hres hpend
  rwa [Function.update_eq_self] at hmove

/-- A thread calls a method. -/
theorem Sim.invoke (h : P.Sim f c) {i : ι} {m : M} (hp : f.phase i = .outside)
    (hm : P.call (f.loc i) = some m) :
    P.Sim { f with
      phase := Function.update f.phase i .entering
      history := f.history ++ [.invoke i m] } c := by
  have hrun : (f.phase i).isRunning = false := by rw [hp]; rfl
  have hthread : ∀ t, P.Thread (f.history ++ [.invoke i m]) c.log t
      (Function.update f.phase i .entering t) (f.loc t) (c.status t) (c.loc t) := by
    intro t
    have ht := h.thread t
    rcases eq_or_ne t i with rfl | hti
    · rw [Function.update_self]
      rw [hp] at ht
      refine ⟨ht.status, ht.loc, ?_, ?_⟩
      · rw [returned_append_invoke]
        exact ht.returned
      · rw [invoked_append_self, ht.invoked, hm]
        simp [Phase.isPending]
    · rw [Function.update_of_ne hti]
      refine ⟨ht.status, ht.loc, ?_, ?_⟩
      · rw [returned_append_invoke]
        exact ht.returned
      · rw [invoked_append_of_ne hti.symm]
        exact ht.invoked
  exact ⟨h.aborted, hthread, fun t rest v ht => h.running t rest v (running_of_update rfl ht),
    fun hno => h.shared fun t => (isRunning_update hrun rfl t).symm.trans (hno t),
    h.history.next List.prefix_rfl (Or.inr ⟨_, rfl⟩) fun t => (hthread t).prefixes⟩

/-- A thread returns. -/
theorem Sim.respond (h : P.Sim f c) {i : ι} {m : M} {r : ρ} (hp : f.phase i = .returning r)
    (hm : P.call (f.loc i) = some m) :
    P.Sim { f with
      phase := Function.update f.phase i .outside
      loc := Function.update f.loc i (P.resume (f.loc i) r)
      history := f.history ++ [.respond i m r] } c := by
  have hrun : (f.phase i).isRunning = false := by rw [hp]; rfl
  have hthread : ∀ t, P.Thread (f.history ++ [.respond i m r]) c.log t
      (Function.update f.phase i .outside t)
      (Function.update f.loc i (P.resume (f.loc i) r) t) (c.status t) (c.loc t) := by
    intro t
    have ht := h.thread t
    rcases eq_or_ne t i with rfl | hti
    · rw [Function.update_self, Function.update_self]
      rw [hp] at ht
      refine ⟨ht.status, ht.loc, ?_, ?_⟩
      · rw [returned_append_self, ht.returned, hm]
        simp [Phase.result?]
      · rw [invoked_append_respond]
        exact ht.invoked
    · rw [Function.update_of_ne hti, Function.update_of_ne hti]
      refine ⟨ht.status, ht.loc, ?_, ?_⟩
      · rw [returned_append_of_ne hti.symm]
        exact ht.returned
      · rw [invoked_append_respond]
        exact ht.invoked
  refine ⟨h.aborted, hthread, fun t rest v ht => ?_,
    fun hno => h.shared fun t => (isRunning_update hrun rfl t).symm.trans (hno t),
    h.history.next List.prefix_rfl (Or.inr ⟨_, rfl⟩) fun t => (hthread t).prefixes⟩
  have ht' := running_of_update rfl ht
  have hti : t ≠ i := by
    rintro rfl
    rw [ht'] at hrun
    cases hrun
  dsimp only
  rw [Function.update_of_ne hti]
  exact h.running t rest v ht'

/-- The holder of the mutex sees the object of the monitor before it runs the body. -/
theorem Orderly.shared_eq (ho : P.Orderly f) (h : P.Sim f c) {i : ι} (hi : (f.phase i).holds)
    (hrun : (f.phase i).isRunning = false) : c.shared = f.shared := by
  refine h.shared fun t => ?_
  rcases eq_or_ne t i with rfl | hti
  · exact hrun
  · by_contra ht
    exact hti (ho.eq_of_holds (Phase.holds_of_isRunning (by simpa using ht)) hi)

/-- A thread begins with the body. -/
theorem Sim.enter (h : P.Sim f c) (ho : P.Orderly f) {i : ι} {m : M} (hp : f.phase i = .testing)
    (hm : P.call (f.loc i) = some m)
    (hb : (P.procedure m).method.blockedOn f.shared = none) :
    P.Sim { f with
      phase := Function.update f.phase i
        (.running (P.procedure m).body (P.procedure m).init) } c := by
  have hshared : c.shared = f.shared := ho.shared_eq h (by rw [hp]; rfl) (by rw [hp]; rfl)
  refine ⟨h.aborted, fun t => ?_, fun t rest v ht => ?_, fun hno => ?_, h.history⟩
  · have ht := h.thread t
    rcases eq_or_ne t i with rfl | hti
    · simp only [Function.update_self]
      rw [hp] at ht
      exact ht.move ht.status rfl rfl
    · simp only [Function.update_of_ne hti]
      exact ht
  · rcases eq_or_ne t i with rfl | hti
    · simp only [Function.update_self, Phase.running.injEq] at ht
      obtain ⟨rfl, rfl⟩ := ht
      rw [hshared]
      exact ⟨m, hm, hb, rfl⟩
    · simp only [Function.update_of_ne hti] at ht
      exact h.running t rest v ht
  · have hself := hno i
    simp only [Function.update_self] at hself
    cases hself

/-- A thread that holds the mutex runs a statement. -/
theorem Sim.exec (h : P.Sim f c) (ho : P.Orderly f) {i : ι} {st : Statement σ V}
    {rest : List (Statement σ V)} {v v' : V} {s : σ} (hp : f.phase i = .running (st :: rest) v)
    (hst : st (f.shared, v) = some (s, v')) :
    P.Sim { f with
      shared := s
      phase := Function.update f.phase i (.running rest v') } c := by
  have hi : (f.phase i).holds := by rw [hp]; rfl
  refine ⟨h.aborted, fun t => ?_, fun t rest' w ht => ?_, fun hno => ?_, h.history⟩
  · have ht := h.thread t
    rcases eq_or_ne t i with rfl | hti
    · simp only [Function.update_self]
      rw [hp] at ht
      exact ht.move ht.status rfl rfl
    · simp only [Function.update_of_ne hti]
      exact ht
  · rcases eq_or_ne t i with rfl | hti
    · simp only [Function.update_self, Phase.running.injEq] at ht
      obtain ⟨rfl, rfl⟩ := ht
      obtain ⟨m, hm, hb, hexec⟩ := h.running t _ _ hp
      refine ⟨m, hm, hb, ?_⟩
      rw [hexec, exec_cons, hst]
      rfl
    · simp only [Function.update_of_ne hti] at ht
      exact absurd (ho.eq_of_holds (Phase.holds_of_isRunning (by rw [ht]; rfl)) hi) hti
  · have hself := hno i
    simp only [Function.update_self] at hself
    cases hself

/-- The whole body takes the object of the monitor to where the thread has taken its own. -/
theorem Sim.body_eq (h : P.Sim f c) {i : ι} {m : M} {v : V} (hp : f.phase i = .running [] v)
    (hm : P.call (f.loc i) = some m) :
    (P.procedure m).method.blockedOn c.shared = none ∧
      (P.procedure m).method.body c.shared = some (f.shared, (P.procedure m).result v) := by
  obtain ⟨m', hm', hb, hexec⟩ := h.running i _ _ hp
  obtain rfl : m = m' := Option.some.inj (hm.symm.trans hm')
  refine ⟨hb, ?_⟩
  simp only [Procedure.method]
  rw [hexec]
  rfl

/-- A thread has run the body and signals: the monitor runs the method. -/
theorem Sim.notify (h : P.Sim f c) (ho : P.Orderly f) (hf : f.aborted = false) {i : ι} {m : M}
    {v : V} {ph : ι → Phase σ κ V ρ} (hp : f.phase i = .running [] v)
    (hm : P.call (f.loc i) = some m)
    (hn : Notified (P.procedure m).notify
      (Function.update f.phase i (.leaving ((P.procedure m).result v))) ph) :
    ∃ c', P.monitor.Step (.run i) c c' ∧ P.Sim { f with phase := ph } c' := by
  have hi : (f.phase i).holds := by rw [hp]; rfl
  have hti := h.thread i
  rw [hp] at hti
  have hloc : c.loc i = f.loc i := hti.loc
  obtain ⟨hb, hbody⟩ := h.body_eq hp hm
  set r := (P.procedure m).result v with hr
  set ph₀ := Function.update f.phase i (.leaving r) with hph₀
  -- Only the holder of the mutex can be between its test and its sleep.
  have hwaiting : ∀ t k, ph₀ t ≠ .waiting k := by
    intro t k ht
    rcases eq_or_ne t i with rfl | hne
    · rw [hph₀, Function.update_self] at ht
      cases ht
    · rw [hph₀, Function.update_of_ne hne] at ht
      exact hne (ho.eq_of_holds (by rw [ht]; rfl) hi)
  have hstatus : ∀ t, (ph₀ t).Matches (Function.update c.status i .ready t) := by
    intro t
    rcases eq_or_ne t i with rfl | hne
    · rw [hph₀, Function.update_self, Function.update_self]
      rfl
    · rw [hph₀, Function.update_of_ne hne, Function.update_of_ne hne]
      exact (h.thread t).status
  obtain ⟨st, hnotified, hmatch⟩ := hn.exists_matches hstatus hwaiting
  refine ⟨_, .finish (h.aborted.trans hf) hti.status (by rw [hloc]; exact hm) hb hbody hnotified,
    ?_⟩
  have hthread : ∀ t, P.Thread f.history (c.log ++ [⟨i, m, r⟩]) t (ph t) (f.loc t) (st t)
      (Function.update c.loc i (P.resume (c.loc i) r) t) := by
    intro t
    rcases eq_or_ne t i with rfl | hne
    · have hph : ph t = .leaving r := hn.eq_of (by rw [hph₀, Function.update_self]) nofun
      rw [hph, Function.update_self, hloc]
      have hself := hmatch t
      rw [hph] at hself
      refine ⟨hself, rfl, ?_, ?_⟩
      · rw [own_append_self, hti.returned, hm]
        simp [Phase.result?]
      · rw [hti.invoked, own_append_self, hm]
        simp [Phase.isPending]
    · have ht := h.thread t
      have hph₀t : ph₀ t = f.phase t := by rw [hph₀, Function.update_of_ne hne]
      rw [Function.update_of_ne hne]
      exact ht.of_ne hne.symm (hmatch t) (by rw [hn.result?_eq, hph₀t])
        (by rw [hn.isPending_eq, hph₀t]) m r
  refine ⟨hf.symm, hthread, fun t rest w ht => ?_, fun _ => rfl,
    h.history.next (List.prefix_append _ _) (Or.inl rfl) fun t => (hthread t).prefixes⟩
  -- Nobody runs a body now.
  exfalso
  have hholds : (ph t).holds := by
    dsimp only at ht
    rw [ht]
    rfl
  rw [hn.holds_eq t] at hholds
  rcases eq_or_ne t i with rfl | hne
  · have hph : ph t = .leaving r := hn.eq_of (by rw [hph₀, Function.update_self]) nofun
    cases hph.symm.trans ht
  · rw [hph₀, Function.update_of_ne hne] at hholds
    exact hne (ho.eq_of_holds hholds hi)

/-- **The monitor follows every step of the program**, with one step or none. -/
theorem Sim.next (h : P.Sim f c) (ho : P.Orderly f) {a : Action ι} (hs : P.Step a f f') :
    ∃ c', (c' = c ∨ P.monitor.Step a c c') ∧ P.Sim f' c' := by
  -- A wait, a spurious wakeup, a failed assertion and a notification are steps of the monitor.
  cases hs with
  | invoke _ hp hm => exact ⟨c, Or.inl rfl, h.invoke hp hm⟩
  | @lock _ i o code _ hp hlock =>
    have hst := (h.thread i).status
    rw [hp] at hst
    refine ⟨c, Or.inl rfl, ?_⟩
    exact h.stay _ _ (by rw [hp]; rfl) rfl hst (by rw [hp]; rfl) (by rw [hp]; rfl)
  | @block _ i m k hf hp hm hb =>
    have hti := h.thread i
    rw [hp] at hti
    have hloc : c.loc i = f.loc i := hti.loc
    have hshared : c.shared = f.shared := ho.shared_eq h (i := i) (by rw [hp]; rfl) (by rw [hp]; rfl)
    refine ⟨_, Or.inr (.wait (h.aborted.trans hf) hti.status (by rw [hloc]; exact hm)
      (by rw [hshared]; exact hb)), ?_⟩
    exact h.move f.owner f.failed (by rw [hp]; rfl) rfl rfl (by rw [hp]; rfl) (by rw [hp]; rfl)
  | @wait _ i k _ hp =>
    have hst := (h.thread i).status
    rw [hp] at hst
    refine ⟨c, Or.inl rfl, ?_⟩
    rw [ho.unlock_eq (by rw [hp]; rfl)]
    exact h.stay _ _ (by rw [hp]; rfl) rfl hst (by rw [hp]; rfl) (by rw [hp]; rfl)
  | @spurious _ i k hf hp =>
    have hst := (h.thread i).status
    rw [hp] at hst
    refine ⟨_, Or.inr (.spurious (h.aborted.trans hf) hst), ?_⟩
    exact h.move f.owner f.failed (by rw [hp]; rfl) rfl rfl (by rw [hp]; rfl) (by rw [hp]; rfl)
  | @relock _ i k o code _ hp hlock =>
    have hst := (h.thread i).status
    rw [hp] at hst
    refine ⟨c, Or.inl rfl, ?_⟩
    exact h.stay _ _ (by rw [hp]; rfl) rfl hst (by rw [hp]; rfl) (by rw [hp]; rfl)
  | enter _ hp hm hb => exact ⟨c, Or.inl rfl, h.enter ho hp hm hb⟩
  | exec _ hp hst => exact ⟨c, Or.inl rfl, h.exec ho hp hst⟩
  | @abort _ i st rest v hf hp hst =>
    obtain ⟨m, hm, hb, hexec⟩ := h.running i _ _ hp
    have hti := h.thread i
    rw [hp] at hti
    have hloc : c.loc i = f.loc i := hti.loc
    refine ⟨_, Or.inr (.abort (h.aborted.trans hf) hti.status (by rw [hloc]; exact hm) hb ?_), ?_⟩
    · simp only [monitor, Procedure.method]
      rw [hexec, exec_cons, hst]
      rfl
    · exact ⟨rfl, h.thread, h.running, h.shared, h.history⟩
  | notify hf hp hm hn =>
    obtain ⟨c', hs, hsim⟩ := h.notify ho hf hp hm hn
    exact ⟨c', Or.inr hs, hsim⟩
  | @unlock _ i r _ hp =>
    have hst := (h.thread i).status
    rw [hp] at hst
    refine ⟨c, Or.inl rfl, ?_⟩
    rw [ho.unlock_eq (by rw [hp]; rfl)]
    exact h.stay _ _ (by rw [hp]; rfl) rfl hst (by rw [hp]; rfl) (by rw [hp]; rfl)
  | respond _ hp hm => exact ⟨c, Or.inl rfl, h.respond hp hm⟩

/-- **The program refines the monitor**: whatever it does is what the monitor does with every
critical section in one step, in an order that explains the history. -/
theorem refines {s : σ} {loc : ι → L} (hr : P.Reaches (start s loc) f) :
    ∃ c, P.monitor.Reaches (Monitor.start s loc) c ∧ P.Sim f c := by
  induction hr with
  | refl =>
    refine ⟨_, Relation.ReflTransGen.refl, rfl, fun i => ⟨rfl, rfl, ?_, rfl⟩, nofun,
      fun _ => rfl, .nil⟩
    simp [start, Monitor.start, own, Locking.returned, Phase.result?]
  | @tail f f' hr hs ih =>
    obtain ⟨a, hs⟩ := hs
    obtain ⟨c, hc, hsim⟩ := ih
    obtain ⟨c', hstep, hsim'⟩ := hsim.next (reaches_orderly hr) hs
    refine ⟨c', ?_, hsim'⟩
    rcases hstep with rfl | hstep
    · exact hc
    · exact hc.tail ⟨a, hstep⟩

omit [DecidableEq ι] in
/-- The log of the monitor is a sequence of operations of `spec`, if every method that does not wait
is one. -/
theorem safe_of_spec {α : Type*} {spec : M → α → ρ → α → Prop} (abs : σ → α)
    (h : ∀ m s, (P.procedure m).method.blockedOn s = none →
      ∃ s' r, (P.procedure m).method.body s = some (s', r) ∧ spec m (abs s) r (abs s')) (a : α) :
    P.monitor.Safe fun s (log : List (Event ι M ρ)) => Legal spec a log (abs s) where
  runs s _ m _ hb := by
    obtain ⟨s', r, hbody, -⟩ := h m s hb
    rw [show P.monitor.method m = (P.procedure m).method from rfl, hbody]
    exact Option.some_ne_none _
  step s log i m s' r hlog hb hbody := by
    obtain ⟨_, _, hbody', hspec⟩ := h m s hb
    obtain ⟨rfl, rfl⟩ := Prod.mk.inj (Option.some.inj (hbody.symm.trans hbody'))
    exact .snoc hlog hspec

/-- No assertion fails then. -/
theorem aborted_eq_false {α : Type*} {spec : M → α → ρ → α → Prop} (abs : σ → α)
    (h : ∀ m s, (P.procedure m).method.blockedOn s = none →
      ∃ s' r, (P.procedure m).method.body s = some (s', r) ∧ spec m (abs s) r (abs s'))
    {s : σ} {loc : ι → L} (hr : P.Reaches (start s loc) f) : f.aborted = false := by
  obtain ⟨c, hc, hsim⟩ := refines hr
  exact hsim.aborted.symm.trans ((safe_of_spec abs h (abs s)).reaches .nil hc).2

/-- **The program is linearizable** if every method that does not wait is an operation of `spec`:
every history is explained by a sequence of operations, which leads to the object that the next
thread finds. -/
theorem linearizable_of_spec {α : Type*} {spec : M → α → ρ → α → Prop} (abs : σ → α)
    (h : ∀ m s, (P.procedure m).method.blockedOn s = none →
      ∃ s' r, (P.procedure m).method.body s = some (s', r) ∧ spec m (abs s) r (abs s'))
    {s : σ} {loc : ι → L} (hr : P.Reaches (start s loc) f) :
    f.aborted = false ∧ f.failed = false ∧
      ∃ log b, Legal spec (abs s) log b ∧ Linearizes log f.history ∧
        (f.owner = none → abs f.shared = b) := by
  have ho := reaches_orderly hr
  obtain ⟨c, hc, hsim⟩ := refines hr
  refine ⟨aborted_eq_false abs h hr, ho.failed, c.log, abs c.shared,
    ((safe_of_spec abs h (abs s)).reaches .nil hc).1, hsim.history, fun hown => ?_⟩
  rw [hsim.shared fun i => ?_]
  by_contra hrun
  have hi := (ho.owner i).2 (Phase.holds_of_isRunning (by simpa using hrun))
  rw [hown] at hi
  cases hi

end Program
end Locking
