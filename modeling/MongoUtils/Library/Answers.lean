import MongoUtils.Library.Remote

/-!
# Which calls are answered

* `exists_iff`: the calls of a client in a run, with their outcomes, are those that can be made one after
  the other on a handler;
* `wellFounded_internal`: without new calls the system comes to rest;
* `Invariant.answered`: then every call has been answered, unless the server was killed.
-/

namespace Remote

open Decoding

variable {ε τ η C O ι : Type} {S : Service ε τ η C O} {perform : η → C → Option (O × η)}
  {Good : η → Prop} {k k' : Connection τ η C O} {h h' : η} {c : C} {o : O} {r : Bool}
  {calls : List (C × O)}

/-! ### Every call that can be made -/

/-- The calls of this client can be written. -/
def Sendable (S : Service ε τ η C O) (k : Connection τ η C O) : Prop :=
  ∀ c ∈ k.done.map Prod.fst ++ k.client.pending, ∃ req, S.send c = .ok req

theorem Move.sendable (hm : Move S r k k') (hk : Sendable S k) : Sendable S k' := by
  cases hm with
  | @receive c o rest hw _ _ =>
    intro c' hc'
    refine hk c' ?_
    rw [hw]
    simpa [Client.pending] using hc'
  | lose _ hw _ _ =>
    intro c' hc'
    refine hk c' (List.mem_append_left _ ?_)
    simpa [Client.pending] using hc'
  | _ => exact hk

theorem Call.sendable (hc : Call S k k') (hk : Sendable S k) : Sendable S k' := by
  cases hc with
  | @ask c req hr _ hsend _ =>
    intro c' hc'
    rcases List.mem_append.1 hc' with hc' | hc'
    · exact hk c' (List.mem_append_left _ hc')
    · rw [List.mem_singleton.1 hc']
      exact ⟨req, hsend⟩
  | @tell c o req hr _ hsend _ =>
    intro c' hc'
    rw [List.map_append, List.append_assoc] at hc'
    rcases List.mem_append.1 hc' with hc' | hc'
    · exact hk c' (List.mem_append_left _ hc')
    rcases List.mem_append.1 hc' with hc' | hc'
    · rw [List.mem_singleton.1 hc']
      exact ⟨req, hsend⟩
    · exact hk c' (List.mem_append_right _ hc')

/-- Nothing is on its way, and the handler is `h` after the calls. -/
structure Idle (k : Connection τ η C O) (h : η) (calls : List (C × O)) : Prop where
  client : k.client = .ready
  handler : k.handler = h
  sent : k.sent = []
  arrived : k.arrived = []
  returning : k.returning = []
  returned : k.returned = []
  done : k.done = calls
  broken : k.broken = false

/-- A step of one connection of a server that runs. -/
def Turn (S : Service ε τ η C O) (k k' : Connection τ η C O) : Prop := Move S true k k' ∨ Call S k k'

theorem Transparent.request_ne_nil (T : Transparent S perform Good) (hh : Good h) {req : List τ}
    (hreq : S.send c = .ok req) (hp : perform h c = some (o, h')) : req ≠ [] := by
  rintro rfl
  obtain ⟨out, hout, -⟩ := T.answers h c o h' _ hh hreq hp
  cases (hout []).symm.trans (T.process_nil h)

theorem Transparent.answer_ne_nil (T : Transparent S perform Good) (ho : S.oneway c = none)
    {out : List τ} (ha : Answer S c o out) : out ≠ [] := by
  rintro rfl
  cases ((answer_iff ho).1 ha []).symm.trans (T.recv_nil c ho)

/-- **A call can be made, served and answered.** -/
theorem Idle.call (T : Transparent S perform Good) (hk : Idle k h calls) (hh : Good h)
    {req : List τ} (hreq : S.send c = .ok req) (hp : perform h c = some (o, h')) :
    ∃ k', Relation.ReflTransGen (Turn S) k k' ∧ Idle k' h' (calls ++ [(c, o)]) := by
  obtain ⟨client, handler, sent, arrived, returning, returned, done, broken⟩ := k
  obtain ⟨rfl, rfl, rfl, rfl, rfl, rfl, rfl, rfl⟩ := hk
  have hne := T.request_ne_nil hh hreq hp
  obtain ⟨out, hout, hans⟩ := T.answers _ c o h' req hh hreq hp
  have hserve := hout []
  rw [List.append_nil] at hserve
  cases ho : S.oneway c with
  | some o' =>
    obtain ⟨rfl, rfl⟩ : o' = o ∧ out = [] := by simpa only [Answer, ho] using hans
    refine ⟨_, ((Relation.ReflTransGen.single (.inr (.tell rfl rfl hreq ho))).tail
      (.inl (.carry (List.append_nil _).symm hne))).tail (.inl (.serve rfl rfl hserve)), ?_⟩
    exact ⟨rfl, rfl, rfl, rfl, rfl, rfl, rfl, rfl⟩
  | none =>
    have hne' := T.answer_ne_nil ho hans
    have hrecv := (answer_iff ho).1 hans []
    rw [List.append_nil] at hrecv
    refine ⟨_, ((((Relation.ReflTransGen.single (.inr (.ask rfl rfl hreq ho))).tail
      (.inl (.carry (List.append_nil _).symm hne))).tail (.inl (.serve rfl rfl hserve))).tail
        (.inl (.bring (List.append_nil _).symm hne'))).tail (.inl (.receive rfl rfl hrecv)), ?_⟩
    exact ⟨rfl, rfl, rfl, rfl, rfl, rfl, rfl, rfl⟩

/-- Calls can be made one after the other. -/
theorem exists_idle (T : Transparent S perform Good) (hl : Local perform S.handler calls h)
    (hsend : ∀ p ∈ calls, ∃ req, S.send p.1 = .ok req) :
    ∃ k, Relation.ReflTransGen (Turn S) S.connected k ∧ Idle k h calls := by
  induction calls using List.reverseRecOn generalizing h with
  | nil =>
    cases hl
    exact ⟨_, .refl, rfl, rfl, rfl, rfl, rfl, rfl, rfl, rfl⟩
  | append_singleton calls p ih =>
    obtain ⟨c, o⟩ := p
    obtain ⟨h₁, h₂, hl₁, hp⟩ := hl.split
    obtain rfl := hl.unique (hl₁.concat hp)
    obtain ⟨k, hk, hidle⟩ := ih hl₁ fun p hp => hsend p (List.mem_append_left _ hp)
    obtain ⟨req, hreq⟩ := hsend (c, o) (List.mem_append_right _ (List.mem_singleton.2 rfl))
    obtain ⟨k', hk', hidle'⟩ := hidle.call T (T.good_of_local hl₁) hreq hp
    exact ⟨k', hk.trans hk', hidle'⟩

section System

variable [DecidableEq ι] {f f' : Config τ η C O ι}

theorem Config.set_set (i : ι) : (f.set i k).set i k' = f.set i k' := by
  unfold Config.set
  rw [Function.update_idem]

/-- A run of one connection is a run of the system. -/
theorem Reachable.turns (hf : Reachable S f) (hr : f.running = true) {i : ι}
    (hk : Relation.ReflTransGen (Turn S) (f.connection i) k) : Reachable S (f.set i k) := by
  induction hk with
  | refl =>
    have hself : f.set i (f.connection i) = f := by
      unfold Config.set
      rw [Function.update_eq_self]
    rwa [hself]
  | @tail k k' _ ht ih =>
    rw [← Config.set_set i (k := k)]
    refine ih.tail ?_
    rcases ht with hm | hc
    · refine .internal (.move ?_)
      rw [Config.set_running, hr, Config.set_connection_self]
      exact hm
    · refine .call ?_
      rw [Config.set_connection_self]
      exact hc

theorem Reachable.sendable (hf : Reachable S f) : ∀ i, Sendable S (f.connection i) := by
  induction hf with
  | refl =>
    intro i c hc
    cases hc
  | @tail f f' _ hs ih =>
    have hset : ∀ {j k}, Sendable S k → ∀ i, Sendable S ((f.set j k).connection i) := by
      intro j k hk i
      by_cases hj : i = j
      · subst hj
        rwa [Config.set_connection_self]
      · rw [Config.set_connection_of_ne hj]
        exact ih i
    cases hs with
    | internal hs =>
      cases hs with
      | kill => exact ih
      | move hm => exact hset (hm.sendable (ih _))
    | call hc => exact hset (hc.sendable (ih _))

/-- **The calls of a client, with their outcomes**, are those that can be written and made one after
the other on a handler. -/
theorem exists_iff (T : Transparent S perform Good) (i : ι) :
    (∃ f : Config τ η C O ι, Reachable S f ∧ (f.connection i).done = calls) ↔
      (∃ h, Local perform S.handler calls h) ∧ ∀ p ∈ calls, ∃ req, S.send p.1 = .ok req := by
  constructor
  · rintro ⟨f, hf, rfl⟩
    refine ⟨((hf.invariant T).kept i).sound.exists_local, fun p hp => ?_⟩
    exact hf.sendable i p.1 (List.mem_append_left _ (List.mem_map_of_mem hp))
  · rintro ⟨⟨h, hl⟩, hsend⟩
    obtain ⟨k, hk, hidle⟩ := exists_idle T hl hsend
    refine ⟨_, Reachable.turns (f := S.start) .refl rfl (i := i) hk, ?_⟩
    rw [Config.set_connection_self]
    exact hidle.done

/-! ### Rest -/

/-- Nothing can happen but a call. -/
def Resting (S : Service ε τ η C O) (f : Config τ η C O ι) : Prop := ∀ f', ¬ Internal S f f'

theorem Resting.not_move (h : Resting S f) {i : ι} : ¬ Move S f.running (f.connection i) k :=
  fun hm => h _ (.move hm)

theorem Resting.sent_eq_nil (h : Resting S f) (i : ι) : (f.connection i).sent = [] := by
  by_contra hne
  exact h.not_move (.carry (List.append_nil _).symm hne)

theorem Resting.returning_eq_nil (h : Resting S f) (i : ι) : (f.connection i).returning = [] := by
  by_contra hne
  exact h.not_move (.bring (List.append_nil _).symm hne)

/-- The thread of the server waits for more. -/
theorem Resting.process_eq (T : Transparent S perform Good) (h : Resting S f)
    (hf : Invariant S perform f) (hr : f.running = true) (i : ι) :
    S.process (f.connection i).handler (f.connection i).arrived = .error S.wait := by
  obtain ⟨hs, hb, hg⟩ := hf.kept i
  have hlive : ∀ c, (f.connection i).client ≠ .gone c := fun c hc => by cases hr.symm.trans (hg c hc)
  rcases hs.process_cases T hlive with hw | ⟨_, _, _, hrun, -⟩ | ⟨_, _, hrun, -⟩
  · exact hw
  · exact (h.not_move (.serve hr hb hrun)).elim
  · exact (h _ (.kill hr hb hrun)).elim

/-- **A server that rests has answered every call.** -/
theorem Resting.ready (T : Transparent S perform Good) (h : Resting S f)
    (hf : Invariant S perform f) (hr : f.running = true) (i : ι) :
    (f.connection i).client = .ready ∧
      Local perform S.handler (f.connection i).done (f.connection i).handler := by
  have hwait := h.process_eq T hf hr i
  have hsent := h.sent_eq_nil i
  have hback := h.returning_eq_nil i
  obtain ⟨hs, hb, hg⟩ := hf.kept i
  cases hs with
  | gone hc => cases hr.symm.trans (hg _ hc)
  | answered hc _ _ hask _ hret =>
    -- The answer has arrived, so the client could return.
    rw [hback, List.append_nil] at hret
    have hrun := (answer_iff hask).1 hret []
    rw [List.append_nil] at hrun
    exact (h.not_move (.receive hc hb hrun)).elim
  | @unserved served queue h' hc hdone hserved hqueue _ _ hreq _ =>
    rw [hsent, List.append_nil] at hreq
    have hgood := T.good_of_local hserved
    generalize hcalls : queue.map Prod.fst ++ (f.connection i).client.pending = calls at hreq
    generalize hs : (f.connection i).arrived = s at hreq hwait
    cases hreq with
    | nil =>
      obtain ⟨hq, hpending⟩ := List.append_eq_nil_iff.1 hcalls
      obtain rfl := List.map_eq_nil_iff.1 hq
      rw [List.append_nil] at hdone
      refine ⟨?_, hdone ▸ hserved⟩
      cases hw : (f.connection i).client with
      | ready => rfl
      | gone c => exact absurd hw (hc c)
      | waiting c =>
        rw [hw] at hpending
        cases hpending
    | @cons c cs req xs hsend _ =>
      -- A request has arrived, so the server could serve it, or be killed by it.
      cases hp : perform (f.connection i).handler c with
      | none => cases (T.kills _ _ _ hgood hsend hp xs).symm.trans hwait
      | some p =>
        obtain ⟨out, hout, -⟩ := T.answers _ _ _ _ _ hgood hsend hp
        cases (hout xs).symm.trans hwait

/-- A call that a client waits for has returned at rest, or the server was killed. -/
def Asked (done : List (C × O)) (c : C) (k : Connection τ η C O) : Prop :=
  (k.client = .waiting c ∨ k.client = .gone c) ∧ k.done = done ∨
    k.client = .ready ∧ ∃ o, k.done = done ++ [(c, o)]

theorem Move.asked {done : List (C × O)} (hm : Move S r k k') (h : Asked done c k) :
    Asked done c k' := by
  cases hm with
  | receive hw _ _ =>
    rcases h with ⟨hc | hc, rfl⟩ | ⟨hc, -⟩
    · obtain rfl := Client.waiting.inj (hw.symm.trans hc)
      exact .inr ⟨rfl, _, rfl⟩
    · cases hw.symm.trans hc
    · cases hw.symm.trans hc
  | lose _ hw =>
    rcases h with ⟨hc | hc, hdone⟩ | ⟨hc, -⟩
    · obtain rfl := Client.waiting.inj (hw.symm.trans hc)
      exact .inl ⟨.inr rfl, hdone⟩
    · cases hw.symm.trans hc
    · cases hw.symm.trans hc
  | _ => exact h

/-- Without calls a client waits for nothing new. -/
theorem Move.waited (hm : Move S r k k') (hc : k'.client = .waiting c ∨ k'.client = .gone c) :
    k.client = .waiting c ∨ k.client = .gone c := by
  cases hm with
  | receive => rcases hc with hc | hc <;> cases hc
  | lose _ hw =>
    rcases hc with hc | hc
    · cases hc
    · obtain rfl := Client.gone.inj hc
      exact .inl hw
  | _ => exact hc

theorem Internal.waited (hs : Internal S f f') {i : ι}
    (hc : (f'.connection i).client = .waiting c ∨ (f'.connection i).client = .gone c) :
    (f.connection i).client = .waiting c ∨ (f.connection i).client = .gone c := by
  cases hs with
  | kill => exact hc
  | @move j k hm =>
    by_cases hj : i = j
    · subst hj
      rw [Config.set_connection_self] at hc
      exact hm.waited hc
    · rwa [Config.set_connection_of_ne hj] at hc

theorem Internal.asked {done : List (C × O)} (hs : Internal S f f') {i : ι}
    (h : Asked done c (f.connection i)) : Asked done c (f'.connection i) := by
  cases hs with
  | kill => exact h
  | @move j k hm =>
    by_cases hj : i = j
    · subst hj
      rw [Config.set_connection_self]
      exact hm.asked h
    · rwa [Config.set_connection_of_ne hj]

theorem Invariant.internals (T : Transparent S perform Good) (hf : Invariant S perform f)
    (hs : Relation.ReflTransGen (Internal S) f f') : Invariant S perform f' := by
  induction hs with
  | refl => exact hf
  | tail _ hs ih => exact hs.invariant T ih

/-- **Every call is answered** by a server that still runs. -/
theorem Invariant.answered (T : Transparent S perform Good) (hf : Invariant S perform f)
    (hs : Relation.ReflTransGen (Internal S) f f') (hrest : Resting S f') (hr : f'.running = true)
    {i : ι} (hc : (f.connection i).client = .waiting c) :
    ∃ o h, (f'.connection i).done = (f.connection i).done ++ [(c, o)] ∧
      Local perform S.handler (f'.connection i).done h := by
  have hstart : Asked (f.connection i).done c (f.connection i) := .inl ⟨.inl hc, rfl⟩
  have hasked : Asked (f.connection i).done c (f'.connection i) := by
    clear hrest hr
    induction hs with
    | refl => exact hstart
    | tail _ hs ih => exact hs.asked ih
  obtain ⟨hready, hl⟩ := hrest.ready T (hf.internals T hs) hr i
  rcases hasked with ⟨hw | hw, -⟩ | ⟨-, o, hdone⟩
  · cases hready.symm.trans hw
  · cases hready.symm.trans hw
  · exact ⟨o, _, hdone, hl⟩

/-- The call that killed the server is one that was waited for. -/
theorem Invariant.killer (T : Transparent S perform Good) (hf : Invariant S perform f)
    (hr : f.running = true) (hs : Relation.ReflTransGen (Internal S) f f')
    (hr' : f'.running = false) : ∃ i c h, Good h ∧ perform h c = none ∧
      (f.connection i).client = .waiting c := by
  obtain ⟨i, c, h, hl, hp, hc⟩ := (hf.internals T hs).killed hr'
  have hback : (f.connection i).client = .waiting c ∨ (f.connection i).client = .gone c := by
    clear hr' hl
    induction hs with
    | refl => exact hc
    | tail _ hs ih => exact ih (hs.waited hc)
  rcases hback with hw | hg
  · exact ⟨i, c, h, T.good_of_local hl, hp, hw⟩
  · cases hr.symm.trans ((hf.kept i).gone c hg)

/-! The bytes that the server has not read, and then what is left to do with the others. -/

def Connection.unread (k : Connection τ η C O) : ℕ := k.sent.length + k.arrived.length

def Connection.work (k : Connection τ η C O) : ℕ :=
  k.sent.length + k.returning.length + k.client.pending.length + if k.broken then 0 else 1

theorem Move.decreases (T : Transparent S perform Good) (hm : Move S r k k') :
    k'.unread < k.unread ∨ k'.unread = k.unread ∧ k'.work < k.work := by
  cases hm with
  | @carry xs ys h hne =>
    have hlen := List.length_pos_iff.2 hne
    refine .inr ⟨?_, ?_⟩ <;> simp [Connection.unread, Connection.work, h] <;> omega
  | @bring xs ys h hne =>
    have hlen := List.length_pos_iff.2 hne
    refine .inr ⟨rfl, ?_⟩
    simp [Connection.work, h]
    omega
  | @serve h out rest _ _ hrun =>
    obtain ⟨L, hL⟩ := T.reads_process k.handler
    obtain ⟨xs, hxs, harr⟩ := (hL _ _ _).1 hrun
    -- From an empty stream the server gets no call.
    have hne : xs ≠ [] := by
      rintro rfl
      cases (hL.eq_ok_nil hxs).symm.trans (T.process_nil _)
    have hlen := List.length_pos_iff.2 hne
    left
    simp [Connection.unread, harr]
    omega
  | receive hc hb _ =>
    exact .inr ⟨rfl, by simp [Connection.work, hc, Client.pending]⟩
  | lose _ hc _ _ =>
    exact .inr ⟨rfl, by simp [Connection.work, hc, Client.pending]⟩
  | refuse _ hb _ => exact .inr ⟨rfl, by simp [Connection.work, hb]⟩
  | misserve _ hb _ _ => exact .inr ⟨rfl, by simp [Connection.work, hb]⟩
  | misread _ hb _ _ => exact .inr ⟨rfl, by simp [Connection.work, hb]⟩

/-- The sum over the connections. -/
def Config.total [Fintype ι] (g : Connection τ η C O → ℕ) (f : Config τ η C O ι) : ℕ :=
  ∑ i, g (f.connection i)

theorem Config.total_set [Fintype ι] (g : Connection τ η C O → ℕ) (i : ι) :
    (f.set i k).total g + g (f.connection i) = f.total g + g k := by
  have hrest : ∑ j ∈ Finset.univ.erase i, g ((f.set i k).connection j) =
      ∑ j ∈ Finset.univ.erase i, g (f.connection j) := by
    refine Finset.sum_congr rfl fun j hj => ?_
    rw [Config.set_connection_of_ne (Finset.ne_of_mem_erase hj)]
  have h := Finset.add_sum_erase Finset.univ (fun j => g ((f.set i k).connection j)) (Finset.mem_univ i)
  have h' := Finset.add_sum_erase Finset.univ (fun j => g (f.connection j)) (Finset.mem_univ i)
  simp only [Config.set_connection_self, hrest] at h
  simp only [Config.total, ← h, ← h']
  omega

/-- **Without new calls the system comes to rest.** -/
theorem wellFounded_internal [Fintype ι] (T : Transparent S perform Good) :
    WellFounded fun f' f : Config τ η C O ι => Internal S f f' := by
  have hlex : WellFounded (Prod.Lex (· < · : ℕ → ℕ → Prop) (· < · : ℕ → ℕ → Prop)) :=
    WellFounded.prod_lex wellFounded_lt wellFounded_lt
  refine Subrelation.wf (fun {f' f} hs => ?_) (InvImage.wf
    (fun f : Config τ η C O ι => (f.total Connection.unread, f.total Connection.work + f.running.toNat))
    hlex)
  show Prod.Lex _ _ _ _
  cases hs with
  | @move i k hm =>
    have hunread := Config.total_set (f := f) (k := k) Connection.unread i
    have hwork := Config.total_set (f := f) (k := k) Connection.work i
    rw [Prod.lex_def]
    rcases hm.decreases T with h | ⟨h, h'⟩
    · left
      simp only
      omega
    · right
      simp only [Config.set_running]
      omega
  | @kill i rest hr _ _ =>
    refine Prod.Lex.right _ ?_
    show f.total Connection.work + _ < _
    simp [hr]

end System

end Remote
