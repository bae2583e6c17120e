import MongoUtils.Library.Decoding

/-!
# Remote procedure calls

Clients call a server over streams, each over a connection with a handler of its own. A client sends
a request and waits for the answer, unless the call has none; a thread of the server takes the requests
of its connection one after the other. What has been sent arrives in parts.

* `Service`: what the clients send and how they read the answers, and what the server does with a
  stream;
* `Step`: the steps of the clients, of the server and of the network, in any order;
* `Transparent`: a request does on the server what the call does on the handler;
* `Reachable.invariant`: then the calls of a client have the outcomes that they have one after the other
  on a handler of its own, nothing unexpected is ever read, and the server is killed only by a call
  that kills it;
-/

namespace Remote

open Decoding

/-- What the server does with a request: the handler afterwards and what is sent back, or it ends the
connection, or it is killed. -/
inductive Served (η τ : Type)
  | answered (h : η) (out : List τ)
  | refused
  | killed

structure Service (ε τ η C O : Type) where
  /-- The handler of a new connection. -/
  handler : η
  send : C → Except ε (List τ)
  /-- The outcome of a call that has no answer. -/
  oneway : C → Option O
  recv : C → Reader ε τ O
  process : η → Reader ε τ (Served η τ)
  /-- The failure of a reader that needs more than there is. -/
  wait : ε

/-- A client calls nothing, waits for the answer to `c`, or has lost the connection before it came. -/
inductive Client (C : Type)
  | ready
  | waiting (c : C)
  | gone (c : C)

/-- A connection. What has been sent to the other side has arrived there in part. -/
structure Connection (τ η C O : Type) where
  client : Client C
  handler : η
  sent : List τ
  arrived : List τ
  returning : List τ
  returned : List τ
  /-- The calls that have returned. -/
  done : List (C × O)
  /-- One side has read what it did not expect. -/
  broken : Bool

structure Config (τ η C O ι : Type) where
  connection : ι → Connection τ η C O
  running : Bool

variable {ε τ η C O ι : Type} {S : Service ε τ η C O} {perform : η → C → Option (O × η)}
  {Good : η → Prop} {k k' : Connection τ η C O} {h h' h'' : η} {c : C} {o : O} {r : Bool}

namespace Service

variable (S : Service ε τ η C O)

def connected : Connection τ η C O where
  client := .ready
  handler := S.handler
  sent := []
  arrived := []
  returning := []
  returned := []
  done := []
  broken := false

def start : Config τ η C O ι where
  connection _ := S.connected
  running := true

end Service

/-- The steps of the network, of the server's thread and of a client that waits, while the server runs
(`r = true`) or after it was killed. -/
inductive Move (S : Service ε τ η C O) (r : Bool) (k : Connection τ η C O) :
    Connection τ η C O → Prop
  | carry {xs ys : List τ} : k.sent = xs ++ ys → xs ≠ [] →
      Move S r k { k with sent := ys, arrived := k.arrived ++ xs }
  | bring {xs ys : List τ} : k.returning = xs ++ ys → xs ≠ [] →
      Move S r k { k with returning := ys, returned := k.returned ++ xs }
  | serve {h : η} {out rest : List τ} : r = true → k.broken = false →
      S.process k.handler k.arrived = .ok (.answered h out, rest) →
      Move S r k { k with handler := h, arrived := rest, returning := k.returning ++ out }
  | refuse {rest : List τ} : r = true → k.broken = false →
      S.process k.handler k.arrived = .ok (.refused, rest) → Move S r k { k with broken := true }
  | misserve {e : ε} : r = true → k.broken = false →
      S.process k.handler k.arrived = .error e → e ≠ S.wait → Move S r k { k with broken := true }
  | receive {c : C} {o : O} {rest : List τ} : k.client = .waiting c → k.broken = false →
      S.recv c k.returned = .ok (o, rest) →
      Move S r k { k with client := .ready, returned := rest, done := k.done ++ [(c, o)] }
  | misread {c : C} {e : ε} : k.client = .waiting c → k.broken = false →
      S.recv c k.returned = .error e → e ≠ S.wait → Move S r k { k with broken := true }
  | lose {c : C} : r = false → k.client = .waiting c → k.returning = [] →
      S.recv c k.returned = .error S.wait → Move S r k { k with client := .gone c }

/-- A client makes a call. -/
inductive Call (S : Service ε τ η C O) (k : Connection τ η C O) : Connection τ η C O → Prop
  | ask {c : C} {req : List τ} : k.client = .ready → k.broken = false → S.send c = .ok req →
      S.oneway c = none → Call S k { k with client := .waiting c, sent := k.sent ++ req }
  | tell {c : C} {o : O} {req : List τ} : k.client = .ready → k.broken = false →
      S.send c = .ok req → S.oneway c = some o →
      Call S k { k with sent := k.sent ++ req, done := k.done ++ [(c, o)] }

section System

variable [DecidableEq ι] {f f' : Config τ η C O ι}

/-- `f` with another connection `i`. -/
def Config.set (f : Config τ η C O ι) (i : ι) (k : Connection τ η C O) : Config τ η C O ι :=
  { f with connection := Function.update f.connection i k }

/-- A step that is not a call. -/
inductive Internal (S : Service ε τ η C O) (f : Config τ η C O ι) : Config τ η C O ι → Prop
  | move {i : ι} {k : Connection τ η C O} : Move S f.running (f.connection i) k →
      Internal S f (f.set i k)
  | kill {i : ι} {rest : List τ} : f.running = true → (f.connection i).broken = false →
      S.process (f.connection i).handler (f.connection i).arrived = .ok (.killed, rest) →
      Internal S f { f with running := false }

inductive Step (S : Service ε τ η C O) (f : Config τ η C O ι) : Config τ η C O ι → Prop
  | internal {f' : Config τ η C O ι} : Internal S f f' → Step S f f'
  | call {i : ι} {k : Connection τ η C O} : Call S (f.connection i) k → Step S f (f.set i k)

/-- The configurations of the runs. -/
def Reachable (S : Service ε τ η C O) : Config τ η C O ι → Prop :=
  Relation.ReflTransGen (Step S) S.start

end System

/-! ### Local calls -/

/-- The calls with their outcomes, one after the other on the handler `h`, which is `h'` afterwards. -/
inductive Local (perform : η → C → Option (O × η)) : η → List (C × O) → η → Prop
  | nil {h : η} : Local perform h [] h
  | cons {h h' h'' : η} {c : C} {o : O} {calls : List (C × O)} : perform h c = some (o, h') →
      Local perform h' calls h'' → Local perform h ((c, o) :: calls) h''

namespace Local

variable {calls calls' : List (C × O)}

theorem append (hl : Local perform h calls h') (hl' : Local perform h' calls' h'') :
    Local perform h (calls ++ calls') h'' := by
  induction hl with
  | nil => exact hl'
  | cons hp _ ih => exact .cons hp (ih hl')

theorem concat (hl : Local perform h calls h') (hp : perform h' c = some (o, h'')) :
    Local perform h (calls ++ [(c, o)]) h'' :=
  hl.append (.cons hp .nil)

/-- A call in between is made on the handler that the calls before leave. -/
theorem split (hl : Local perform h (calls ++ (c, o) :: calls') h'') :
    ∃ h₁ h₂, Local perform h calls h₁ ∧ perform h₁ c = some (o, h₂) := by
  induction calls generalizing h with
  | nil =>
    obtain _ | ⟨hp, -⟩ := hl
    exact ⟨_, _, .nil, hp⟩
  | cons p calls ih =>
    obtain _ | ⟨hp, hl⟩ := hl
    obtain ⟨h₁, h₂, hl₁, hp₁⟩ := ih hl
    exact ⟨h₁, h₂, .cons hp hl₁, hp₁⟩

theorem unique (hl : Local perform h calls h') (hl' : Local perform h calls h'') : h' = h'' := by
  induction hl with
  | nil =>
    cases hl'
    rfl
  | cons hp _ ih =>
    obtain _ | ⟨hp', hl'⟩ := hl'
    obtain ⟨-, rfl⟩ := Prod.mk.inj (Option.some.inj (hp.symm.trans hp'))
    exact ih hl'

/-- What every call preserves holds afterwards. -/
theorem invariant (hgood : ∀ h c o h', Good h → perform h c = some (o, h') → Good h')
    (hl : Local perform h calls h') (hh : Good h) : Good h' := by
  induction hl with
  | nil => exact hh
  | cons hp _ ih => exact ih (hgood _ _ _ _ hh hp)

end Local

/-- `out` is the answer that gives `c` the outcome `o`. -/
def Answer (S : Service ε τ η C O) (c : C) (o : O) (out : List τ) : Prop :=
  match S.oneway c with
  | some o' => o' = o ∧ out = []
  | none => ∀ rest, S.recv c (out ++ rest) = .ok (o, rest)

/-- A request does on the server what the call does on a handler: `perform h c` is the outcome with the
handler afterwards, or nothing if the call kills the process. -/
structure Transparent (S : Service ε τ η C O) (perform : η → C → Option (O × η))
    (Good : η → Prop) : Prop where
  good : Good S.handler
  good_perform : ∀ h c o h', Good h → perform h c = some (o, h') → Good h'
  process_nil : ∀ h, S.process h [] = .error S.wait
  recv_nil : ∀ c, S.oneway c = none → S.recv c [] = .error S.wait
  reads_process : ∀ h, ∃ L, Reads (S.process h) L
  reads_recv : ∀ c, ∃ L, Reads (S.recv c) L
  steady_process : ∀ h, Steady S.wait (S.process h)
  steady_recv : ∀ c, Steady S.wait (S.recv c)
  answers : ∀ h c o h' req, Good h → S.send c = .ok req → perform h c = some (o, h') →
    ∃ out, (∀ rest, S.process h (req ++ rest) = .ok (.answered h' out, rest)) ∧ Answer S c o out
  kills : ∀ h c req, Good h → S.send c = .ok req → perform h c = none →
    ∀ rest, S.process h (req ++ rest) = .ok (.killed, rest)
  oneway : ∀ h c o, Good h → S.oneway c = some o → ∃ h', perform h c = some (o, h')

/-! ### What holds of a connection -/

/-- What the clients send for these calls. -/
inductive Requests (S : Service ε τ η C O) : List C → List τ → Prop
  | nil : Requests S [] []
  | cons {c : C} {cs : List C} {req xs : List τ} : S.send c = .ok req → Requests S cs xs →
      Requests S (c :: cs) (req ++ xs)

theorem Requests.concat {cs : List C} {xs req : List τ} (hr : Requests S cs xs)
    (hreq : S.send c = .ok req) : Requests S (cs ++ [c]) (xs ++ req) := by
  induction hr with
  | nil => simpa using Requests.cons hreq .nil
  | cons hc _ ih =>
    rw [List.append_assoc]
    exact .cons hc ih

/-- The call that a client waits for. -/
def Client.pending : Client C → List C
  | .waiting c => [c]
  | _ => []

/-- Where a connection can stand.

* `unserved`: the calls in `queue` have returned before they are served. They and the call that the
  client waits for are on their way to the server;
* `answered`: the answer to the call that the client waits for is on its way back;
* `gone`: the server has been killed before the call was answered. -/
inductive Sound (S : Service ε τ η C O) (perform : η → C → Option (O × η))
    (k : Connection τ η C O) : Prop
  | unserved {served queue : List (C × O)} {h : η} (hc : ∀ c, k.client ≠ .gone c)
      (hdone : k.done = served ++ queue) (hserved : Local perform S.handler served k.handler)
      (hqueue : Local perform k.handler queue h)
      (hway : ∀ p ∈ queue, S.oneway p.1 = some p.2) (hask : ∀ c ∈ k.client.pending, S.oneway c = none)
      (hreq : Requests S (queue.map Prod.fst ++ k.client.pending) (k.arrived ++ k.sent))
      (hret : k.returned ++ k.returning = [])
  | answered {c : C} {o : O} {h : η} (hc : k.client = .waiting c)
      (hdone : Local perform S.handler k.done h) (hp : perform h c = some (o, k.handler))
      (hask : S.oneway c = none) (hreq : k.arrived ++ k.sent = [])
      (hret : Answer S c o (k.returned ++ k.returning))
  | gone {c : C} {h : η} (hc : k.client = .gone c) (hdone : Local perform S.handler k.done h)

theorem Transparent.process_of_append (T : Transparent S perform Good) {s t rest : List τ}
    {a : Served η τ} (hr : S.process h (s ++ t) = .ok (a, rest)) :
    S.process h s = .error S.wait ∨ ∃ rest', S.process h s = .ok (a, rest') ∧ rest' ++ t = rest := by
  obtain ⟨L, hL⟩ := T.reads_process h
  exact hL.of_append (T.steady_process h) hr

theorem Transparent.recv_of_append (T : Transparent S perform Good) {s t rest : List τ}
    (hr : S.recv c (s ++ t) = .ok (o, rest)) :
    S.recv c s = .error S.wait ∨ ∃ rest', S.recv c s = .ok (o, rest') ∧ rest' ++ t = rest := by
  obtain ⟨L, hL⟩ := T.reads_recv c
  exact hL.of_append (T.steady_recv c) hr

theorem Transparent.good_of_local (T : Transparent S perform Good) {calls : List (C × O)}
    (hl : Local perform S.handler calls h) : Good h :=
  hl.invariant T.good_perform T.good

theorem answer_of_oneway {out : List τ} (ho : S.oneway c = some o) (h : Answer S c o out) :
    out = [] := by
  unfold Answer at h
  rw [ho] at h
  exact h.2

theorem answer_iff {out : List τ} (ho : S.oneway c = none) :
    Answer S c o out ↔ ∀ rest, S.recv c (out ++ rest) = .ok (o, rest) := by
  unfold Answer
  rw [ho]

namespace Sound

theorem exists_local (hk : Sound S perform k) : ∃ h, Local perform S.handler k.done h := by
  cases hk with
  | unserved _ hdone hserved hqueue => exact ⟨_, hdone ▸ hserved.append hqueue⟩
  | answered _ hdone => exact ⟨_, hdone⟩
  | gone _ hdone => exact ⟨_, hdone⟩

theorem connected (S : Service ε τ η C O) (perform : η → C → Option (O × η)) :
    Sound S perform S.connected := by
  have hdone : S.connected.done = [] ++ [] := rfl
  refine .unserved (by simp [Service.connected]) hdone .nil .nil (by simp) (fun c hc => ?_) .nil rfl
  cases hc

/-- **What the server's thread can do**: wait for more, serve the next call, or be killed by it. -/
theorem process_cases (T : Transparent S perform Good) (hk : Sound S perform k)
    (hc : ∀ c, k.client ≠ .gone c) : S.process k.handler k.arrived = .error S.wait ∨
      (∃ h out rest, S.process k.handler k.arrived = .ok (.answered h out, rest) ∧
        Sound S perform { k with handler := h, arrived := rest, returning := k.returning ++ out }) ∨
      ∃ c rest, S.process k.handler k.arrived = .ok (.killed, rest) ∧ k.client = .waiting c ∧
        Local perform S.handler k.done k.handler ∧ perform k.handler c = none := by
  cases hk with
  | gone hg => exact absurd hg (hc _)
  | answered _ _ _ _ hreq =>
    -- Its request has been taken, and there is no other.
    rw [(List.append_eq_nil_iff.1 hreq).1]
    exact .inl (T.process_nil _)
  | @unserved served queue h' _ hdone hserved hqueue hway hask hreq hret =>
    have hgood := T.good_of_local hserved
    obtain _ | ⟨⟨c, o⟩, queue⟩ := queue
    · cases hq : k.client with
      | gone c => exact absurd hq (hc c)
      | ready =>
        rw [hq] at hreq
        generalize hs : k.arrived ++ k.sent = s at hreq
        cases hreq
        rw [(List.append_eq_nil_iff.1 hs).1]
        exact .inl (T.process_nil _)
      | waiting c =>
        rw [hq] at hreq hask
        have ho := hask c (List.mem_singleton.2 rfl)
        rw [List.append_nil] at hdone
        generalize hs : k.arrived ++ k.sent = s at hreq
        obtain _ | ⟨hsend, ⟨⟩⟩ := hreq
        cases hp : perform k.handler c with
        | none =>
          have hrun := T.kills _ _ _ hgood hsend hp []
          rw [← hs] at hrun
          rcases T.process_of_append hrun with hw | ⟨rest, hr, -⟩
          · exact .inl hw
          · exact .inr (.inr ⟨c, rest, hr, rfl, hdone ▸ hserved, hp⟩)
        | some p =>
          obtain ⟨out, hout, hans⟩ := T.answers _ _ _ _ _ hgood hsend hp
          have hrun := hout []
          rw [← hs] at hrun
          rcases T.process_of_append hrun with hw | ⟨rest, hr, hrest⟩
          · exact .inl hw
          · refine .inr (.inl ⟨p.2, out, rest, hr, .answered rfl (hdone ▸ hserved) hp ho hrest ?_⟩)
            show Answer S c p.1 (k.returned ++ (k.returning ++ out))
            rwa [← List.append_assoc, hret]
    · obtain _ | ⟨hp, hqueue⟩ := hqueue
      have ho := hway _ (List.mem_cons_self ..)
      generalize hs : k.arrived ++ k.sent = s at hreq
      obtain _ | @⟨_, _, req, xs, hsend, hreq⟩ := hreq
      obtain ⟨out, hout, hans⟩ := T.answers _ _ _ _ _ hgood hsend hp
      obtain rfl := answer_of_oneway ho hans
      have hrun := hout xs
      rw [← hs] at hrun
      rcases T.process_of_append hrun with hw | ⟨rest, hr, rfl⟩
      · exact .inl hw
      · refine .inr (.inl ⟨_, [], rest, hr, .unserved hc ?_ (hserved.concat hp) hqueue
          (fun p hp => hway p (List.mem_cons_of_mem _ hp)) hask hreq ?_⟩)
        · rw [hdone, List.append_cons]
        · rwa [List.append_nil]

/-- **What a client that waits can do**: wait for more, or return with the outcome of the call. -/
theorem recv_cases (T : Transparent S perform Good) (hk : Sound S perform k)
    (hc : k.client = .waiting c) : S.recv c k.returned = .error S.wait ∨
      ∃ o rest h h', S.recv c k.returned = .ok (o, rest) ∧ Local perform S.handler k.done h ∧
        perform h c = some (o, h') ∧
        Sound S perform { k with client := .ready, returned := rest, done := k.done ++ [(c, o)] } := by
  cases hk with
  | gone hg =>
    rw [hc] at hg
    cases hg
  | unserved _ _ _ _ _ hask _ hret =>
    rw [hc] at hask
    rw [(List.append_eq_nil_iff.1 hret).1]
    exact .inl (T.recv_nil c (hask c (List.mem_singleton.2 rfl)))
  | @answered c' o h hc' hdone hp hask hreq hret =>
    obtain rfl := Client.waiting.inj (hc.symm.trans hc')
    have hrun := (answer_iff hask).1 hret []
    rw [List.append_nil] at hrun
    rcases T.recv_of_append hrun with hw | ⟨rest, hr, hrest⟩
    · exact .inl hw
    · have hdone' : k.done ++ [(c, o)] = k.done ++ [(c, o)] ++ [] := (List.append_nil _).symm
      refine .inr ⟨o, rest, h, _, hr, hdone, hp, ?_⟩
      refine .unserved (by simp) hdone' (hdone.concat hp) .nil (by simp) (fun c hc => ?_) ?_ hrest
      · cases hc
      · rw [hreq]
        exact .nil

/-- The bytes on their way only arrive. -/
theorem transport (hk : Sound S perform k) {sent arrived returning returned : List τ}
    (hto : arrived ++ sent = k.arrived ++ k.sent)
    (hback : returned ++ returning = k.returned ++ k.returning) :
    Sound S perform { k with sent := sent, arrived := arrived, returning := returning,
                             returned := returned } := by
  cases hk with
  | unserved hc hdone hserved hqueue hway hask hreq hret =>
    exact .unserved hc hdone hserved hqueue hway hask (hto ▸ hreq) (hback.trans hret)
  | answered hc hdone hp hask hreq hret =>
    refine .answered hc hdone hp hask (hto.trans hreq) ?_
    show Answer S _ _ (returned ++ returning)
    rwa [hback]
  | gone hc hdone => exact .gone hc hdone

end Sound

/-! ### What holds of the runs -/

/-- The call that killed the server is the next one of this client. -/
def Killed (S : Service ε τ η C O) (perform : η → C → Option (O × η)) (k : Connection τ η C O) : Prop :=
  ∃ c h, Local perform S.handler k.done h ∧ perform h c = none ∧
    (k.client = .waiting c ∨ k.client = .gone c)

/-- What every step keeps: a connection is sound and not broken, and lost only with the server. -/
structure Kept (S : Service ε τ η C O) (perform : η → C → Option (O × η)) (r : Bool)
    (k : Connection τ η C O) : Prop where
  sound : Sound S perform k
  broken : k.broken = false
  gone : ∀ c, k.client = .gone c → r = false

theorem Move.kept (T : Transparent S perform Good) (hm : Move S r k k') (hk : Kept S perform r k) :
    Kept S perform r k' := by
  obtain ⟨hs, hb, hg⟩ := hk
  have hlive : r = true → ∀ c, k.client ≠ .gone c := by
    rintro rfl c hgone
    cases hg c hgone
  cases hm with
  | carry hsent _ =>
    refine ⟨hs.transport ?_ rfl, hb, hg⟩
    -- The bytes go on from one place to the next, in order.
    rw [hsent, List.append_assoc]
  | bring hret _ =>
    refine ⟨hs.transport rfl ?_, hb, hg⟩
    rw [hret, List.append_assoc]
  | serve hr _ hrun =>
    rcases hs.process_cases T (hlive hr) with hw | ⟨_, _, _, h, hs'⟩ | ⟨_, _, h, -⟩
    · cases hrun.symm.trans hw
    · cases hrun.symm.trans h
      exact ⟨hs', hb, hg⟩
    · cases hrun.symm.trans h
  | refuse hr _ hrun =>
    rcases hs.process_cases T (hlive hr) with hw | ⟨_, _, _, h, -⟩ | ⟨_, _, h, -⟩
    · cases hrun.symm.trans hw
    · cases hrun.symm.trans h
    · cases hrun.symm.trans h
  | misserve hr _ hrun hne =>
    rcases hs.process_cases T (hlive hr) with hw | ⟨_, _, _, h, -⟩ | ⟨_, _, h, -⟩
    · exact absurd (Except.error.inj (hrun.symm.trans hw)) hne
    · cases hrun.symm.trans h
    · cases hrun.symm.trans h
  | receive hc _ hrun =>
    rcases hs.recv_cases T hc with hw | ⟨_, _, _, _, h, -, -, hs'⟩
    · cases hrun.symm.trans hw
    · cases hrun.symm.trans h
      exact ⟨hs', hb, nofun⟩
  | misread hc _ hrun hne =>
    rcases hs.recv_cases T hc with hw | ⟨_, _, _, _, h, -⟩
    · exact absurd (Except.error.inj (hrun.symm.trans hw)) hne
    · cases hrun.symm.trans h
  | lose hr _ _ _ =>
    obtain ⟨h, hl⟩ := hs.exists_local
    exact ⟨.gone rfl hl, hb, fun _ _ => hr⟩

theorem Call.kept (T : Transparent S perform Good) (hc : Call S k k') (hk : Kept S perform r k) :
    Kept S perform r k' := by
  obtain ⟨hs, hb, -⟩ := hk
  -- A client that waits or is gone calls nothing.
  cases hs with
  | answered hw =>
    cases hc with
    | ask hr => cases hr.symm.trans hw
    | tell hr => cases hr.symm.trans hw
  | gone hg =>
    cases hc with
    | ask hr => cases hr.symm.trans hg
    | tell hr => cases hr.symm.trans hg
  | @unserved served queue h _ hdone hserved hqueue hway _ hreq hret =>
    have hqueue' : ∀ {c req}, k.client = .ready → S.send c = .ok req →
        Requests S (queue.map Prod.fst ++ [c]) (k.arrived ++ (k.sent ++ req)) := by
      intro c req hr hsend
      rw [hr] at hreq
      rw [← List.append_assoc]
      exact ((List.append_nil (queue.map Prod.fst)) ▸ hreq).concat hsend
    cases hc with
    | @ask c req hr _ hsend ho =>
      refine ⟨.unserved (by simp) hdone hserved hqueue hway ?_ (hqueue' hr hsend) hret, hb, nofun⟩
      intro c' hc'
      rwa [List.mem_singleton.1 hc']
    | @tell c o req hr _ hsend ho =>
      obtain ⟨h', hp⟩ := T.oneway h c o (T.good_of_local (hserved.append hqueue)) ho
      refine ⟨.unserved (by simp [hr]) ?_ hserved (hqueue.concat hp) ?_ ?_ ?_ hret, hb, ?_⟩
      · rw [hdone, List.append_assoc]
      · intro p hp
        rcases List.mem_append.1 hp with hp | hp
        · exact hway p hp
        · rw [List.mem_singleton.1 hp]
          exact ho
      · intro c hc
        rw [hr] at hc
        cases hc
      · show Requests S ((queue ++ [(c, o)]).map Prod.fst ++ k.client.pending) _
        rw [hr, List.map_append]
        exact (List.append_nil _).symm ▸ hqueue' hr hsend
      · intro c hg
        cases hr.symm.trans hg

theorem Move.killed (T : Transparent S perform Good) (hm : Move S r k k') (hk : Kept S perform r k)
    (h : Killed S perform k) : Killed S perform k' := by
  obtain ⟨c, h, hl, hp, hc⟩ := h
  cases hm with
  | lose _ hw =>
    rcases hc with hc | hc
    · obtain rfl := Client.waiting.inj (hw.symm.trans hc)
      exact ⟨_, h, hl, hp, .inr rfl⟩
    · cases hw.symm.trans hc
  | receive hw _ hrun =>
    rcases hc with hc | hc
    · obtain rfl := Client.waiting.inj (hw.symm.trans hc)
      rcases hk.sound.recv_cases T hw with h' | ⟨o, rest, h', h'', -, hl', hp', -⟩
      · cases hrun.symm.trans h'
      · rw [hl.unique hl', hp'] at hp
        cases hp
    · cases hw.symm.trans hc
  | _ => exact ⟨c, h, hl, hp, hc⟩

theorem Call.killed (hc : Call S k k') (h : Killed S perform k) : False := by
  obtain ⟨c, h, -, -, hw⟩ := h
  cases hc with
  | ask hr =>
    rw [hr] at hw
    rcases hw with hw | hw <;> cases hw
  | tell hr =>
    rw [hr] at hw
    rcases hw with hw | hw <;> cases hw

section System

variable [DecidableEq ι] {f f' : Config τ η C O ι}

@[simp] theorem Config.set_running (i : ι) : (f.set i k).running = f.running := rfl

@[simp] theorem Config.set_connection_self (i : ι) : (f.set i k).connection i = k :=
  Function.update_self ..

theorem Config.set_connection_of_ne {i j : ι} (hj : j ≠ i) :
    (f.set i k).connection j = f.connection j := Function.update_of_ne hj ..

/-- What holds in every configuration of a run. -/
structure Invariant (S : Service ε τ η C O) (perform : η → C → Option (O × η))
    (f : Config τ η C O ι) : Prop where
  kept : ∀ i, Kept S perform f.running (f.connection i)
  killed : f.running = false → ∃ i, Killed S perform (f.connection i)

theorem Invariant.set (hf : Invariant S perform f) {i : ι} (hk : Kept S perform f.running k)
    (hkilled : Killed S perform (f.connection i) → Killed S perform k) :
    Invariant S perform (f.set i k) := by
  constructor
  · intro j
    by_cases hj : j = i
    · subst hj
      rwa [Config.set_connection_self]
    · rw [Config.set_connection_of_ne hj]
      exact hf.kept j
  · intro hr
    obtain ⟨j, hj⟩ := hf.killed hr
    refine ⟨j, ?_⟩
    by_cases hji : j = i
    · subst hji
      rw [Config.set_connection_self]
      exact hkilled hj
    · rwa [Config.set_connection_of_ne hji]

theorem Internal.invariant (T : Transparent S perform Good) (hs : Internal S f f')
    (hf : Invariant S perform f) : Invariant S perform f' := by
  cases hs with
  | @move i k hm => exact hf.set (hm.kept T (hf.kept i)) (hm.killed T (hf.kept i))
  | @kill i rest hr _ hrun =>
    have hki := hf.kept i
    have hlive : ∀ c, (f.connection i).client ≠ .gone c := by
      intro c hg
      cases hr.symm.trans (hki.gone c hg)
    refine ⟨fun j => ⟨(hf.kept j).sound, (hf.kept j).broken, fun _ _ => rfl⟩, fun _ => ⟨i, ?_⟩⟩
    rcases hki.sound.process_cases T hlive with hw | ⟨_, _, _, h, -⟩ | ⟨c, _, -, hc, hl, hp⟩
    · cases hrun.symm.trans hw
    · cases hrun.symm.trans h
    · exact ⟨c, _, hl, hp, .inl hc⟩

theorem Step.invariant (T : Transparent S perform Good) (hs : Step S f f')
    (hf : Invariant S perform f) : Invariant S perform f' := by
  cases hs with
  | internal hs => exact hs.invariant T hf
  | @call i k hc => exact hf.set (hc.kept T (hf.kept i)) fun hk => (hc.killed hk).elim

/-- **The invariant of the runs.** -/
theorem Reachable.invariant (T : Transparent S perform Good) (hf : Reachable S f) :
    Invariant S perform f := by
  induction hf with
  | refl => exact ⟨fun _ => ⟨Sound.connected S perform, rfl, nofun⟩, nofun⟩
  | tail _ hs ih => exact hs.invariant T ih

end System

end Remote
