import MongoUtils.Library.Answers
import MongoUtils.Tutorial.Calculator

/-!
# The calculator with many clients

`TThreadedServer` gives every connection a thread and a handler of its own. The clients call what they
like, in any order, and what they send arrives in parts.

* `process_iff`: what each stream makes a thread of the server do;
* `calls_exact`: the outcomes of the calls of a client are those of the same calls on a handler of its
  own, whatever the other clients do;
* `connections_safe`: nothing unexpected is read, and no connection is lost while the server runs;
* `getStruct_latest`: `getStruct` returns the last result that this client has stored;
* `calls_answered`: every call is answered, unless somebody divides the smallest number by `-1`.
-/

namespace MongoUtils
namespace Tutorial

open Remote (Served Config Reachable Resting Internal Local)
open Assignments

/-- **What each stream makes a thread of the server do.** It takes what stands in front of a message
and refuses a message that is not a call. Otherwise it takes a structure with any fields, and
does what the function responds to those that it knows. -/
theorem process_iff (h : CalculatorHandler) (stream rest : Str) (served : Served CalculatorHandler UInt8) :
    CalculatorProcessor.process h stream = .ok (served, rest) ↔
      ∃ m head, Head m head ∧
        if m.type ≠ TMessageType.call ∧ m.type ≠ TMessageType.oneway then
          stream = head ++ rest ∧ served = .refused
        else
          ∃ fs, Fields (Encoding 63) fs ∧ stream = head ++ (writeFields fs ++ rest) ∧
            CalculatorProcessor.respond m h fs = .ok served := by
  have hreads := reads_process CalculatorProcessor.responds h stream served rest
  refine hreads.trans ?_
  constructor
  · rintro ⟨xs, ⟨m, head, hhead, hm⟩, rfl⟩
    refine ⟨m, head, hhead, ?_⟩
    split at hm
    · next ht =>
      obtain ⟨rfl, rfl⟩ := hm
      rw [if_pos ht]
      exact ⟨rfl, rfl⟩
    · next ht =>
      obtain ⟨fs, hfs, rfl, hrespond⟩ := hm
      rw [if_neg ht]
      exact ⟨fs, hfs, List.append_assoc .., hrespond⟩
  · rintro ⟨m, head, hhead, hm⟩
    split at hm
    · next ht =>
      obtain ⟨rfl, rfl⟩ := hm
      exact ⟨head, ⟨m, head, hhead, by rw [if_pos ht]; exact ⟨rfl, rfl⟩⟩, rfl⟩
    · next ht =>
      obtain ⟨fs, hfs, rfl, hrespond⟩ := hm
      exact ⟨head ++ writeFields fs, ⟨m, head, hhead, by rw [if_neg ht]; exact ⟨fs, hfs, rfl, hrespond⟩⟩,
        (List.append_assoc ..).symm⟩

section Connections

variable {ι : Type} [DecidableEq ι] {f : Config UInt8 CalculatorHandler Call Outcome ι}

/-- **A client cannot tell the server from a handler of its own**: whatever the other clients do, the
calls that it can have made, with their outcomes, are those that can be written and made one after
the other on a new handler. -/
theorem calls_exact (i : ι) (calls : List (Call × Outcome)) :
    (∃ f : Config UInt8 CalculatorHandler Call Outcome ι,
        Reachable calculator f ∧ (f.connection i).done = calls) ↔
      (∃ h, Local perform {} calls h) ∧ ∀ p ∈ calls, ∃ req, p.1.send = .ok req :=
  Remote.exists_iff transparent i

/-- **Nothing goes wrong but one thing**: no side reads what it did not expect, no connection is lost
while the server runs, and the server is killed only while a client waits for the quotient that does
not fit. -/
theorem connections_safe (hf : Reachable calculator f) :
    (∀ i, (f.connection i).broken = false) ∧
      (∀ i c, (f.connection i).client = .gone c → f.running = false) ∧
      (f.running = false → ∃ i c, Kills c ∧
        ((f.connection i).client = .waiting c ∨ (f.connection i).client = .gone c)) := by
  have hinv := hf.invariant transparent
  refine ⟨fun i => (hinv.kept i).broken, fun i c => (hinv.kept i).gone c, fun hr => ?_⟩
  obtain ⟨i, c, h, -, hp, hw⟩ := hinv.killed hr
  exact ⟨i, c, perform_eq_none_iff.1 hp, hw⟩

/-- The quotient that does not fit. -/
def overflow : Call := .calculate 1 ⟨Int32.minValue, -1, Operation.divide, none⟩

/-- A client waits for the quotient that does not fit, and the server is killed. -/
theorem connections_safe_overflow :
    ∃ f : Config UInt8 CalculatorHandler Call Outcome Unit, Reachable calculator f ∧
      f.running = false ∧ (∀ i, (f.connection i).broken = false) ∧
      ∃ i c, Kills c ∧ ((f.connection i).client = .waiting c ∨ (f.connection i).client = .gone c) := by
  have hkills : Kills overflow := ⟨1, _, rfl, rfl, rfl, rfl⟩
  obtain ⟨req, hreq⟩ : ∃ req, calculator.send overflow = .ok req := ⟨_, rfl⟩
  have hkill : calculator.process {} req = .ok (.killed, []) := by
    have h := transparent.kills _ _ _ transparent.good hreq (perform_eq_none_iff.2 hkills) []
    rwa [List.append_nil] at h
  have hne : req ≠ [] := by
    rintro rfl
    cases hkill
  have h0 : Reachable calculator
    (calculator.start : Config UInt8 CalculatorHandler Call Outcome Unit) := .refl
  have h1 := h0.tail (.call (i := ()) (.ask rfl rfl hreq rfl))
  have h2 := h1.tail (.internal (.move (i := ()) (.carry (List.append_nil req).symm hne)))
  have h3 := h2.tail (.internal (.kill (i := ()) rfl rfl hkill))
  obtain ⟨f, hf, hrun⟩ : ∃ f : Config UInt8 CalculatorHandler Call Outcome Unit,
      Reachable calculator f ∧ f.running = false := ⟨_, h3, rfl⟩
  obtain ⟨hbroken, -, hkilled⟩ := connections_safe hf
  exact ⟨f, hf, hrun, hbroken, hkilled hrun⟩

/-- **`getStruct` returns the last result that the same client has stored** under the number, or an
empty structure. -/
theorem getStruct_latest (hf : Reachable calculator f) {i : ι} {before after : List (Call × Outcome)}
    {ret : SharedStruct} {key : Int32} {o : Outcome}
    (hdone : (f.connection i).done = before ++ (.getStruct ret key, o) :: after) :
    ∃ ss, o = .ok (.struct ss) ∧
      (Latest (stored before) key ss ∨ (∀ p ∈ stored before, p.1 ≠ key) ∧ ss = {}) := by
  obtain ⟨h, hl⟩ := ((hf.invariant transparent).kept i).sound.exists_local
  rw [hdone] at hl
  obtain ⟨h₁, h₂, hl₁, hp⟩ := hl.split
  exact getStruct_of_local hl₁ hp

/-- A client adds `2` and `3`, and asks for the result. -/
theorem getStruct_latest_sum :
    ∃ (f : Config UInt8 CalculatorHandler Call Outcome Unit) (o : Outcome), Reachable calculator f ∧
      (f.connection ()).done =
        [(.calculate 1 ⟨2, 3, Operation.add, none⟩, .ok (.number 5)), (.getStruct {} 1, o)] ∧
      ∃ ss, o = .ok (.struct ss) ∧ Latest [((1 : Int32), ⟨1, toString 5⟩)] 1 ss := by
  have hadd : perform {} (.calculate 1 ⟨2, 3, Operation.add, none⟩) = some (.ok (.number 5), _) :=
    perform_calculate_ok rfl
  have hsend : ∀ p ∈ [(Call.calculate 1 ⟨2, 3, Operation.add, none⟩, (.ok (.number 5) : Outcome)),
      (.getStruct {} 1, .ok (.struct (CalculatorHandler.getStruct (.store {} 1 5) 1).1))],
      ∃ req, calculator.send p.1 = .ok req := by
    simp only [List.mem_cons, List.not_mem_nil, or_false, forall_eq_or_imp, forall_eq]
    exact ⟨⟨_, rfl⟩, ⟨_, rfl⟩⟩
  obtain ⟨f, hf, hdone⟩ :=
    (Remote.exists_iff transparent ()).2 ⟨⟨_, .cons hadd (.cons rfl .nil)⟩, hsend⟩
  have hafter : (f.connection ()).done = [_] ++ _ :: [] := hdone
  obtain ⟨ss, hss, hlog⟩ := getStruct_latest hf hafter
  have hstored : stored [(Call.calculate 1 ⟨2, 3, Operation.add, none⟩, .ok (.number 5))] =
      [(1, ⟨1, toString 5⟩)] := rfl
  rw [hstored] at hlog
  exact ⟨f, _, hf, hdone, ss, hss, hlog.resolve_right fun h => h.1 _ (List.mem_singleton.2 rfl) rfl⟩

/-- **Every call is answered, unless one of them kills the server.** Without new calls the system comes
to rest, in whatever order its steps are made. Then the server runs if and only if no client has
waited for the quotient that does not fit, and if it runs every client that has waited has an outcome. -/
theorem calls_answered [Fintype ι] :
    (WellFounded fun f' f : Config UInt8 CalculatorHandler Call Outcome ι =>
        Internal calculator f f') ∧
      ∀ f f' : Config UInt8 CalculatorHandler Call Outcome ι, Reachable calculator f →
        f.running = true → Relation.ReflTransGen (Internal calculator) f f' → Resting calculator f' →
        (f'.running = false ↔ ∃ i c, (f.connection i).client = .waiting c ∧ Kills c) ∧
          (f'.running = true → ∀ i c, (f.connection i).client = .waiting c →
            ∃ o, (f'.connection i).done = (f.connection i).done ++ [(c, o)]) := by
  refine ⟨Remote.wellFounded_internal transparent, fun f f' hf hr hs hrest => ?_⟩
  have hinv := hf.invariant transparent
  refine ⟨⟨fun hr' => ?_, ?_⟩, fun hr' i c hc => ?_⟩
  · obtain ⟨i, c, h, -, hp, hw⟩ := hinv.killer transparent hr hs hr'
    exact ⟨i, c, hw, perform_eq_none_iff.1 hp⟩
  · rintro ⟨i, c, hc, hkills⟩
    by_contra hr'
    obtain ⟨o, h, hdone, hl⟩ := hinv.answered transparent hs hrest (eq_true_of_ne_false hr') hc
    rw [hdone] at hl
    obtain ⟨h₁, h₂, -, hp⟩ := hl.split
    cases hp.symm.trans (perform_eq_none_iff.2 hkills)
  · obtain ⟨o, -, hdone, -⟩ := hinv.answered transparent hs hrest hr' hc
    exact ⟨o, hdone⟩

end Connections

end Tutorial
end MongoUtils
