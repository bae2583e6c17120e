import MongoUtils.Library.Assignments
import MongoUtils.Library.Remote
import MongoUtils.Tutorial.Messages

/-!
# The handler of the calculator

`CalculatorHandler` of `tutorial/server.cpp`. Every connection has one of its own, which
`CalculatorCloneFactory` makes.

* `CalculatorHandler`: the handler, with its functions. A sum, a difference or a product that does not
  fit wraps around, and a quotient that does not fit kills the process
  (`CalculatorHandler.value_eq_killed_iff`);
* `Call`, `perform`: the functions of the service, called on a handler;
* `getStruct_of_local`: after any calls `getStruct` returns the last result that was stored under the
  number, or an empty structure.
-/

namespace MongoUtils
namespace Tutorial

open Remote (Local)
open Assignments

/-- `to_string(val)` -/
def toString (val : Int32) : Str := ascii val.toInt.repr

/-- How `calculate` ends when it does not return: with an exception, or with the signal for a division
that overflows. -/
inductive Interrupt
  | invalid (io : InvalidOperation)
  | killed
  deriving DecidableEq

structure CalculatorHandler where
  log : Std.TreeMap Int32 SharedStruct := ∅

namespace CalculatorHandler

def ping : Str := ascii "pong"

def add (n1 n2 : Int32) : Int32 := n1 + n2

/-- The `switch` of `calculate`. -/
def value (work : Work) : Except Interrupt Int32 :=
  if work.op = Operation.add then .ok (work.num1 + work.num2)
  else if work.op = Operation.subtract then .ok (work.num1 - work.num2)
  else if work.op = Operation.multiply then .ok (work.num1 * work.num2)
  else if work.op = Operation.divide then
    if work.num2 = 0 then .error (.invalid ⟨work.op, ascii "Cannot divide by 0"⟩)
    else if work.num1 = Int32.minValue ∧ work.num2 = -1 then .error .killed
    else .ok (work.num1 / work.num2)
  else .error (.invalid ⟨work.op, ascii "Invalid Operation"⟩)

/-- `log[logid] = ss;` -/
def store (h : CalculatorHandler) (logid val : Int32) : CalculatorHandler where
  log := h.log.insert logid ⟨logid, toString val⟩

def calculate (h : CalculatorHandler) (logid : Int32) (work : Work) :
    Except Interrupt (Int32 × CalculatorHandler) := do
  let val ← value work
  return (val, h.store logid val)

/-- `log[logid]` is inserted when it is not there. -/
def getStruct (h : CalculatorHandler) (logid : Int32) : SharedStruct × CalculatorHandler :=
  match h.log[logid]? with
  | some ss => (ss, h)
  | none => ({}, { log := h.log.insert logid {} })

end CalculatorHandler

/-! ### The functions of the service -/

/-- A function with its arguments. `getStruct` is given the structure that it fills, and `calculate` and
`add` are called for their results. -/
inductive Call
  | ping
  | add (num1 num2 : Int32)
  | calculate (logid : Int32) (w : Work)
  | getStruct (ret : SharedStruct) (key : Int32)
  | zip

/-- What the functions return. -/
inductive Value
  | string (s : Str)
  | number (n : Int32)
  | struct (ss : SharedStruct)
  | nothing
  deriving DecidableEq

/-- A value, or what is thrown. -/
abbrev Outcome : Type := Except Thrown Value

/-- The function called on the handler itself. -/
def perform (h : CalculatorHandler) : Call → Option (Outcome × CalculatorHandler)
  | .ping => some (.ok (.string CalculatorHandler.ping), h)
  | .add num1 num2 => some (.ok (.number (CalculatorHandler.add num1 num2)), h)
  | .calculate logid w =>
      match h.calculate logid w with
      | .ok (val, h') => some (.ok (.number val), h')
      | .error (.invalid io) => some (.error (.invalidOperation io), h)
      | .error .killed => none
  | .getStruct _ key => some (.ok (.struct (h.getStruct key).1), (h.getStruct key).2)
  | .zip => some (.ok .nothing, h)

namespace CalculatorHandler

variable {h h' : CalculatorHandler} {logid key val : Int32} {w : Work} {ss : SharedStruct}

/-- **`calculate` kills the server** only with the one quotient that does not fit. -/
theorem value_eq_killed_iff : value w = .error .killed ↔
    w.op = Operation.divide ∧ w.num1 = Int32.minValue ∧ w.num2 = -1 := by
  unfold value
  by_cases hadd : w.op = Operation.add
  · simp [hadd, Operation.add, Operation.divide]
  by_cases hsub : w.op = Operation.subtract
  · simp [hsub, Operation.add, Operation.subtract, Operation.divide]
  by_cases hmul : w.op = Operation.multiply
  · simp [hmul, Operation.add, Operation.subtract, Operation.multiply, Operation.divide]
  rw [if_neg hadd, if_neg hsub, if_neg hmul]
  by_cases hdiv : w.op = Operation.divide
  · rw [if_pos hdiv]
    by_cases hzero : w.num2 = 0
    · simp [hzero]
    · rw [if_neg hzero]
      by_cases hmin : w.num1 = Int32.minValue ∧ w.num2 = -1
      · simp [hmin, hdiv]
      · simp [hmin]
  · simp [hdiv]

/-- The two exceptions of `calculate`. -/
theorem of_value_eq_invalid {io : InvalidOperation} (hv : value w = .error (.invalid io)) :
    io.whatOp = w.op ∧ io.why ∈ [ascii "Cannot divide by 0", ascii "Invalid Operation"] := by
  unfold value at hv
  split at hv
  · cases hv
  split at hv
  · cases hv
  split at hv
  · cases hv
  split at hv
  · split at hv
    · cases hv
      exact ⟨rfl, List.mem_cons_self ..⟩
    · split at hv
      · cases hv
      · cases hv
  · cases hv
    exact ⟨rfl, List.mem_cons_of_mem _ (List.mem_singleton.2 rfl)⟩

/-- What `log[key]` is, or would be. -/
def lookup (h : CalculatorHandler) (key : Int32) : SharedStruct := h.log[key]?.getD {}

theorem getStruct_fst (h : CalculatorHandler) (key : Int32) : (h.getStruct key).1 = h.lookup key := by
  unfold getStruct lookup
  cases h.log[key]? <;> rfl

theorem lookup_getStruct (h : CalculatorHandler) (key logid : Int32) :
    (h.getStruct key).2.lookup logid = h.lookup logid := by
  unfold getStruct lookup
  cases hk : h.log[key]? with
  | some ss => rfl
  | none =>
    show (h.log.insert key {})[logid]?.getD {} = _
    rw [Std.TreeMap.getElem?_insert]
    by_cases hl : key = logid
    · subst hl
      simp [hk]
    · simp [hl]

theorem lookup_store (h : CalculatorHandler) (logid val key : Int32) :
    (h.store logid val).lookup key = if logid = key then ⟨logid, toString val⟩ else h.lookup key := by
  unfold store lookup
  rw [Std.TreeMap.getElem?_insert]
  by_cases hl : logid = key
  · simp [hl]
  · simp [hl]

end CalculatorHandler

section Perform

variable {h : CalculatorHandler} {logid val : Int32} {w : Work} {io : InvalidOperation} {c : Call}

theorem perform_calculate_ok (hv : CalculatorHandler.value w = .ok val) :
    perform h (.calculate logid w) = some (.ok (.number val), h.store logid val) := by
  simp only [perform, CalculatorHandler.calculate, hv]
  rfl

theorem perform_calculate_invalid (hv : CalculatorHandler.value w = .error (.invalid io)) :
    perform h (.calculate logid w) = some (.error (.invalidOperation io), h) := by
  simp only [perform, CalculatorHandler.calculate, hv]
  rfl

theorem perform_calculate_killed (hv : CalculatorHandler.value w = .error .killed) :
    perform h (.calculate logid w) = none := by
  simp only [perform, CalculatorHandler.calculate, hv]
  rfl

/-- A call that kills the process. -/
def Kills (c : Call) : Prop :=
  ∃ logid w, c = .calculate logid w ∧ w.op = Operation.divide ∧ w.num1 = Int32.minValue ∧ w.num2 = -1

theorem perform_eq_none_iff : perform h c = none ↔ Kills c := by
  constructor
  · intro hp
    cases c with
    | calculate logid w =>
      refine ⟨logid, w, rfl, CalculatorHandler.value_eq_killed_iff.1 ?_⟩
      cases hv : CalculatorHandler.value w with
      | ok val => cases hp.symm.trans (perform_calculate_ok hv)
      | error e =>
        cases e with
        | invalid io => cases hp.symm.trans (perform_calculate_invalid hv)
        | killed => rfl
    | _ => cases hp
  · rintro ⟨logid, w, rfl, hw⟩
    exact perform_calculate_killed (CalculatorHandler.value_eq_killed_iff.2 hw)

end Perform

/-! ### What the log holds -/

theorem length_toString_le (val : Int32) : (toString val).length ≤ 11 := by
  have hlt := val.toInt_lt
  have hge := val.le_toInt
  have hlen : (toString val).length = val.toInt.repr.length := by
    rw [toString, ascii, List.length_map, String.length_toList]
  rw [hlen]
  cases hv : val.toInt with
  | ofNat n =>
    rw [hv, Int.ofNat_eq_natCast] at hlt
    have h := Nat.repr_length n 10 (by omega) (by omega)
    show n.repr.length ≤ 11
    omega
  | negSucc n =>
    rw [hv] at hge
    have h := Nat.repr_length (n + 1) 10 (by omega) (by omega)
    show ("-" ++ (n + 1).repr).length ≤ 11
    rw [String.length_append]
    have hminus : "-".length = 1 := rfl
    omega

/-- Everything in the log can be written. -/
def CalculatorHandler.Short (h : CalculatorHandler) : Prop :=
  ∀ key, (h.lookup key).value.length < 2 ^ 31

theorem CalculatorHandler.short_empty : CalculatorHandler.Short {} := by
  intro key
  show (((∅ : Std.TreeMap Int32 SharedStruct)[key]?).getD {}).value.length < 2 ^ 31
  rw [Std.TreeMap.getElem?_emptyc]
  decide

section Log

variable {h h' : CalculatorHandler} {calls : List (Call × Outcome)} {c : Call} {o : Outcome}

/-- What a call stores in the log. -/
def entry : Call × Outcome → Option (Int32 × SharedStruct)
  | (.calculate logid _, .ok (.number val)) => some (logid, ⟨logid, toString val⟩)
  | _ => none

theorem exists_of_entry {p : Int32 × SharedStruct} (he : entry (c, o) = some p) :
    ∃ logid val, p = (logid, ⟨logid, toString val⟩) := by
  unfold entry at he
  split at he
  · next logid w val heq =>
    exact ⟨logid, val, (Option.some.inj he).symm⟩
  · cases he

/-- What the calls store, one after the other. -/
def stored (calls : List (Call × Outcome)) : List (Int32 × SharedStruct) := calls.filterMap entry

/-- What a call changes in the log: nothing but the entry that it stores. -/
theorem lookup_of_perform (hp : perform h c = some (o, h')) :
    h'.lookup = (entry (c, o)).elim h.lookup fun p => Function.update h.lookup p.1 p.2 := by
  cases c with
  | ping =>
    obtain ⟨rfl, rfl⟩ := Prod.mk.inj (Option.some.inj hp)
    rfl
  | add num1 num2 =>
    obtain ⟨rfl, rfl⟩ := Prod.mk.inj (Option.some.inj hp)
    rfl
  | zip =>
    obtain ⟨rfl, rfl⟩ := Prod.mk.inj (Option.some.inj hp)
    rfl
  | getStruct ret key =>
    obtain ⟨rfl, rfl⟩ := Prod.mk.inj (Option.some.inj hp)
    funext logid
    exact h.lookup_getStruct key logid
  | calculate logid w =>
    cases hv : CalculatorHandler.value w with
    | error e =>
      cases e with
      | killed => cases hp.symm.trans (perform_calculate_killed hv)
      | invalid io =>
        cases hp.symm.trans (perform_calculate_invalid hv)
        rfl
    | ok val =>
      cases hp.symm.trans (perform_calculate_ok hv)
      funext key
      rw [h.lookup_store]
      -- `calculate` stores its result under `logid`.
      show _ = Function.update h.lookup logid _ key
      by_cases hk : logid = key
      · rw [if_pos hk, hk, Function.update_self]
      · rw [if_neg hk, Function.update_of_ne (Ne.symm hk)]

theorem short_of_perform (hh : h.Short) (hp : perform h c = some (o, h')) : h'.Short := by
  intro key
  rw [lookup_of_perform hp]
  cases he : entry (c, o) with
  | none => exact hh key
  | some p =>
    show (Function.update h.lookup p.1 p.2 key).value.length < _
    by_cases hk : key = p.1
    · subst hk
      rw [Function.update_self]
      obtain ⟨logid, val, rfl⟩ := exists_of_entry he
      exact (length_toString_le val).trans_lt (by decide)
    · rw [Function.update_of_ne hk]
      exact hh key

theorem lookup_of_local (hl : Local perform h calls h') :
    h'.lookup = (stored calls).foldl (fun log p => Function.update log p.1 p.2) h.lookup := by
  induction hl with
  | nil => rfl
  | @cons h h' h'' c o calls hp _ ih =>
    rw [ih, lookup_of_perform hp]
    unfold stored
    rw [List.filterMap_cons]
    cases entry (c, o) <;> rfl

/-- **`getStruct` returns the last result that was stored**, or an empty structure. -/
theorem getStruct_of_local {ret : SharedStruct} {key : Int32} (hl : Local perform {} calls h)
    (hp : perform h (.getStruct ret key) = some (o, h')) : ∃ ss, o = .ok (.struct ss) ∧
      (Latest (stored calls) key ss ∨ (∀ p ∈ stored calls, p.1 ≠ key) ∧ ss = {}) := by
  obtain ⟨rfl, -⟩ := Prod.mk.inj (Option.some.inj hp)
  refine ⟨_, rfl, ?_⟩
  have hlog : (h.getStruct key).1 = (stored calls).foldl
      (fun log p => Function.update log p.1 p.2) (CalculatorHandler.lookup {}) key := by
    rw [h.getStruct_fst, lookup_of_local hl]
  rcases foldl_update_iff.1 hlog.symm with hlatest | ⟨hnone, hempty⟩
  · exact .inl hlatest
  · exact .inr ⟨hnone, hempty.symm⟩

end Log

end Tutorial
end MongoUtils
