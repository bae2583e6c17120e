import MongoUtils.Tutorial.Handler

/-!
# The calculator over the wire

The client and the server of `tutorial.thrift`, as the Thrift compiler generates them
(`tutorial/gen-cpp`).

* `AddArgs`, .., `GetStructResult`: the structures of the arguments and the results;
* `processPing`, .., `CalculatorProcessor.process`: the server;
* `sendPing`, `recvPing`, ..: the client;
* `transparent`: a call over the wire does what the call on the handler does.
-/

namespace MongoUtils
namespace Tutorial

open Decoding
open Remote (Served Service)

/-! ### Arguments -/

/-- `Calculator_add_args` -/
structure AddArgs where
  num1 : Int32 := 0
  num2 : Int32 := 0

/-- `Calculator_calculate_args` -/
structure CalculateArgs where
  logid : Int32 := 0
  w : Work := {}

/-- `SharedService_getStruct_args` -/
structure GetStructArgs where
  key : Int32 := 0

variable {d : ℕ}

namespace AddArgs

def setNum1 (v : Int32) (args : AddArgs) : AddArgs := { args with num1 := v }
def setNum2 (v : Int32) (args : AddArgs) : AddArgs := { args with num2 := v }

def members : List (Member AddArgs) := [.i32 1 setNum1, .i32 2 setNum2]

def fields (args : AddArgs) : List WrittenField := [Field.i32 1 args.num1, Field.i32 2 args.num2]

theorem level_members : ∀ m ∈ members, m.level ≤ 63 := by
  simp [members, Member.i32]

theorem does_fields (args : AddArgs) :
    List.Forall₂ (Does members 63) args.fields [setNum1 args.num1, setNum2 args.num2] :=
  .cons (does_i32 (by decide) rfl) (.cons (does_i32 (by decide) rfl) .nil)

end AddArgs

namespace CalculateArgs

def setLogid (v : Int32) (args : CalculateArgs) : CalculateArgs := { args with logid := v }
def setW (v : Work) (args : CalculateArgs) : CalculateArgs := { args with w := v }

def members : List (Member CalculateArgs) :=
  [.i32 1 setLogid, .struct 2 Work.members 1 Work.level_members CalculateArgs.w setW]

def fields (args : CalculateArgs) : List WrittenField :=
  [Field.i32 1 args.logid, Field.struct 2 args.w.write]

theorem level_members : ∀ m ∈ members, m.level ≤ 63 := by
  simp [members, Member.i32, Member.struct]

theorem does_fields (args : CalculateArgs) : List.Forall₂ (Does members 63) args.fields
    [setLogid args.logid, fun s => setW (args.w.steps.foldl (fun s step => step s) s.w) s] :=
  .cons (does_i32 (by decide) rfl)
    (.cons (does_struct (by decide) (Work.does_fields (by decide) args.w) rfl) .nil)

end CalculateArgs

namespace GetStructArgs

def setKey (v : Int32) (args : GetStructArgs) : GetStructArgs := { args with key := v }

def members : List (Member GetStructArgs) := [.i32 1 setKey]

def fields (args : GetStructArgs) : List WrittenField := [Field.i32 1 args.key]

theorem level_members : ∀ m ∈ members, m.level ≤ 63 := by
  simp [members, Member.i32]

theorem does_fields (args : GetStructArgs) :
    List.Forall₂ (Does members 63) args.fields [setKey args.key] :=
  .cons (does_i32 (by decide) rfl) .nil

end GetStructArgs

/-! ### Results -/

/-- `Calculator_ping_result`: `success` is `none` when `__isset.success` is `false`, as in all of
these. `outcome` is what the client makes of the result that it has read. -/
structure PingResult where
  success : Option Str := none

/-- `Calculator_add_result` -/
structure AddResult where
  success : Option Int32 := none

/-- `Calculator_calculate_result` -/
structure CalculateResult where
  success : Option Int32 := none
  ouch : Option InvalidOperation := none

/-- `SharedService_getStruct_result` -/
structure GetStructResult where
  success : Option SharedStruct := none

namespace PingResult

def setSuccess (v : Str) (r : PingResult) : PingResult := { r with success := some v }

def members : List (Member PingResult) := [.string 0 setSuccess]

def fields (r : PingResult) : List WrittenField := (r.success.map (Field.string 0)).toList

def outcome (r : PingResult) : Outcome :=
  match r.success with
  | some s => .ok (.string s)
  | none => .error (missingResult "ping failed: unknown result")

theorem level_members : ∀ m ∈ members, m.level ≤ 63 := by
  simp [members, Member.string]

end PingResult

namespace AddResult

def setSuccess (v : Int32) (r : AddResult) : AddResult := { r with success := some v }

def members : List (Member AddResult) := [.i32 0 setSuccess]

def fields (r : AddResult) : List WrittenField := (r.success.map (Field.i32 0)).toList

def outcome (r : AddResult) : Outcome :=
  match r.success with
  | some n => .ok (.number n)
  | none => .error (missingResult "add failed: unknown result")

theorem level_members : ∀ m ∈ members, m.level ≤ 63 := by
  simp [members, Member.i32]

end AddResult

namespace CalculateResult

def setSuccess (v : Int32) (r : CalculateResult) : CalculateResult := { r with success := some v }
def setOuch (v : InvalidOperation) (r : CalculateResult) : CalculateResult := { r with ouch := some v }

def members : List (Member CalculateResult) :=
  [.i32 0 setSuccess,
   .struct 1 InvalidOperation.members 1 InvalidOperation.level_members (fun r => r.ouch.getD {}) setOuch]

def fields (r : CalculateResult) : List WrittenField :=
  match r.success with
  | some v => [Field.i32 0 v]
  | none => (r.ouch.map fun x => Field.struct 1 x.write).toList

def outcome (r : CalculateResult) : Outcome :=
  match r.success, r.ouch with
  | some n, _ => .ok (.number n)
  | none, some ouch => .error (.invalidOperation ouch)
  | none, none => .error (missingResult "calculate failed: unknown result")

theorem level_members : ∀ m ∈ members, m.level ≤ 63 := by
  simp [members, Member.i32, Member.struct]

end CalculateResult

namespace GetStructResult

def setSuccess (v : SharedStruct) (r : GetStructResult) : GetStructResult :=
  { r with success := some v }

/-- The result is read into `ret`. -/
def members (ret : SharedStruct) : List (Member GetStructResult) :=
  [.struct 0 SharedStruct.members 1 SharedStruct.level_members (fun r => r.success.getD ret) setSuccess]

def fields (r : GetStructResult) : List WrittenField :=
  (r.success.map fun ss => Field.struct 0 ss.write).toList

def outcome (r : GetStructResult) : Outcome :=
  match r.success with
  | some ss => .ok (.struct ss)
  | none => .error (missingResult "getStruct failed: unknown result")

theorem level_members (ret : SharedStruct) : ∀ m ∈ members ret, m.level ≤ 63 := by
  simp [members, Member.struct]

end GetStructResult

/-! ### The server -/

def processPing : Method CalculatorHandler :=
  .of (ascii "ping") ([] : List (Member Unit)) (by simp) () fun seqid h _ =>
    reply (ascii "ping") seqid (writeStruct (PingResult.fields ⟨some CalculatorHandler.ping⟩)) h

def processAdd : Method CalculatorHandler :=
  .of (ascii "add") AddArgs.members AddArgs.level_members {} fun seqid h args =>
    let result : AddResult := ⟨some (CalculatorHandler.add args.num1 args.num2)⟩
    reply (ascii "add") seqid (writeStruct result.fields) h

def processCalculate : Method CalculatorHandler :=
  .of (ascii "calculate") CalculateArgs.members CalculateArgs.level_members {} fun seqid h args =>
    match h.calculate args.logid args.w with
    | .ok (val, h') =>
        let result : CalculateResult := { success := some val }
        reply (ascii "calculate") seqid (writeStruct result.fields) h'
    | .error (.invalid io) =>
        let result : CalculateResult := { ouch := some io }
        reply (ascii "calculate") seqid (writeStruct result.fields) h
    | .error .killed => .ok .killed

def processZip : Method CalculatorHandler :=
  .of (ascii "zip") ([] : List (Member Unit)) (by simp) () fun _ h _ => .ok (.answered h [])

def processGetStruct : Method CalculatorHandler :=
  .of (ascii "getStruct") GetStructArgs.members GetStructArgs.level_members {} fun seqid h args =>
    let (ss, h') := h.getStruct args.key
    let result : GetStructResult := ⟨some ss⟩
    reply (ascii "getStruct") seqid (writeStruct result.fields) h'

namespace SharedServiceProcessor

def processMap : List (Method CalculatorHandler) := [processGetStruct]

def dispatchCall : Message → CalculatorHandler → Read (Served CalculatorHandler UInt8) :=
  Tutorial.dispatchCall processMap skipCall

/-- What it does when the arguments are in these fields. -/
def respond : Message → CalculatorHandler → List Field → Response CalculatorHandler :=
  dispatchFields processMap fun m h _ => unknownMethod m h

end SharedServiceProcessor

namespace CalculatorProcessor

def processMap : List (Method CalculatorHandler) :=
  [processPing, processAdd, processCalculate, processZip]

def dispatchCall : Message → CalculatorHandler → Read (Served CalculatorHandler UInt8) :=
  Tutorial.dispatchCall processMap SharedServiceProcessor.dispatchCall

/-- What it does when the arguments are in these fields. -/
def respond : Message → CalculatorHandler → List Field → Response CalculatorHandler :=
  dispatchFields processMap SharedServiceProcessor.respond

def process : CalculatorHandler → Read (Served CalculatorHandler UInt8) :=
  Tutorial.process dispatchCall

theorem responds (m : Message) (h : CalculatorHandler) : Responds (dispatchCall m h) (respond m h) :=
  responds_dispatchCall (responds_dispatchCall (responds_skipCall m h))

theorem waits (m : Message) (h : CalculatorHandler) : Waits (dispatchCall m h) :=
  waits_dispatchCall (waits_dispatchCall (waits_skipCall m h))

end CalculatorProcessor

/-! ### The client -/

def sendPing : Written := sendCall (ascii "ping") TMessageType.call (writeStruct [])

def sendAdd (num1 num2 : Int32) : Written :=
  let args : AddArgs := ⟨num1, num2⟩
  sendCall (ascii "add") TMessageType.call (writeStruct args.fields)

def sendCalculate (logid : Int32) (w : Work) : Written :=
  let args : CalculateArgs := ⟨logid, w⟩
  sendCall (ascii "calculate") TMessageType.call (writeStruct args.fields)

def sendGetStruct (key : Int32) : Written :=
  let args : GetStructArgs := ⟨key⟩
  sendCall (ascii "getStruct") TMessageType.call (writeStruct args.fields)

def sendZip : Written := sendCall (ascii "zip") TMessageType.oneway (writeStruct [])

def recvPing : Read Outcome :=
  recvReply (ascii "ping") (readStruct PingResult.members recursionLimit {}) PingResult.outcome

def recvAdd : Read Outcome :=
  recvReply (ascii "add") (readStruct AddResult.members recursionLimit {}) AddResult.outcome

def recvCalculate : Read Outcome :=
  recvReply (ascii "calculate") (readStruct CalculateResult.members recursionLimit {})
    CalculateResult.outcome

def recvGetStruct (ret : SharedStruct) : Read Outcome :=
  recvReply (ascii "getStruct") (readStruct (GetStructResult.members ret) recursionLimit {})
    GetStructResult.outcome

namespace Call

def send : Call → Written
  | .ping => sendPing
  | .add num1 num2 => sendAdd num1 num2
  | .calculate logid w => sendCalculate logid w
  | .getStruct _ key => sendGetStruct key
  | .zip => sendZip

/-- `zip` returns without an answer. -/
def recv : Call → Read Outcome
  | .ping => recvPing
  | .add _ _ => recvAdd
  | .calculate _ _ => recvCalculate
  | .getStruct ret _ => recvGetStruct ret
  | .zip => return .ok .nothing

def oneway : Call → Option Outcome
  | .zip => some (.ok .nothing)
  | _ => none

end Call

/-- The clients and the server of `tutorial/client.cpp` and `tutorial/server.cpp`. -/
def calculator : Service ProtocolError UInt8 CalculatorHandler Call Outcome where
  handler := {}
  send := Call.send
  oneway := Call.oneway
  recv := Call.recv
  process := CalculatorProcessor.process
  wait := .endOfFile

/-! ### A call over the wire -/

section Transparent

variable {h h' : CalculatorHandler} {c : Call} {o : Outcome} {req : Str}

/-- The answer of the server to the request `req` of `c`, as the client reads it. -/
def Answered (h : CalculatorHandler) (c : Call) (req : Str) (o : Outcome) (h' : CalculatorHandler) :
    Prop :=
  ∃ out, (∀ rest, CalculatorProcessor.process h (req ++ rest) = .ok (.answered h' out, rest)) ∧
    ∀ rest, c.recv (out ++ rest) = .ok (o, rest)

theorem exists_field_string {s : Str} (hs : s.length < 2 ^ 31) (id : Int16) :
    ∃ f, Field.string id s = .ok f := by
  obtain ⟨xs, hxs⟩ := exists_writeString hs
  exact ⟨⟨TType.string, id, xs⟩, by rw [Field.string, hxs]; rfl⟩

theorem exists_field_struct {fs : List WrittenField} (hfs : ∀ f ∈ fs, ∃ g, f = .ok g) (id : Int16) :
    ∃ f, Field.struct id (writeStruct fs) = .ok f := by
  obtain ⟨xs, hxs⟩ := exists_writeStruct hfs
  exact ⟨⟨TType.struct, id, xs⟩, by rw [Field.struct, hxs]; rfl⟩

theorem answered_ping (hreq : sendPing = .ok req) :
    Answered h .ping req (.ok (.string CalculatorHandler.ping)) h := by
  have hargs : List.Forall₂ (Does ([] : List (Member Unit)) 63) [] [] := .nil
  have hresult : List.Forall₂ (Does PingResult.members 63)
      (PingResult.fields ⟨some CalculatorHandler.ping⟩)
      [PingResult.setSuccess CalculatorHandler.ping] :=
    .cons (does_string (by decide) rfl) .nil
  refine call_roundtrip CalculatorProcessor.responds () hargs hreq (by decide)
    PingResult.level_members hresult ?_ (fun _ _ => rfl) {} PingResult.outcome
  exact List.forall_mem_singleton.2 (exists_field_string (by decide) 0)

theorem answered_add {num1 num2 : Int32} (hreq : sendAdd num1 num2 = .ok req) :
    Answered h (.add num1 num2) req (.ok (.number (CalculatorHandler.add num1 num2))) h := by
  have hresult : List.Forall₂ (Does AddResult.members 63)
      (AddResult.fields ⟨some (CalculatorHandler.add num1 num2)⟩)
      [AddResult.setSuccess (CalculatorHandler.add num1 num2)] :=
    .cons (does_i32 (by decide) rfl) .nil
  refine call_roundtrip CalculatorProcessor.responds {} (AddArgs.does_fields ⟨num1, num2⟩) hreq
    (by decide) AddResult.level_members hresult ?_ (fun args hargs => ?_) {} AddResult.outcome
  · exact List.forall_mem_singleton.2 ⟨_, rfl⟩
  · show reply _ _ (writeStruct (AddResult.fields ⟨some (CalculatorHandler.add _ _)⟩)) h = _
    rw [hargs]
    rfl

/-- The arguments that the server reads are those that the client has written. -/
theorem foldl_steps_calculate (logid : Int32) (w : Work) :
    [CalculateArgs.setLogid logid,
      fun s => CalculateArgs.setW (w.steps.foldl (fun s step => step s) s.w) s].foldl
        (fun s step => step s) {} = (⟨logid, w⟩ : CalculateArgs) := by
  show CalculateArgs.setW (w.steps.foldl (fun s step => step s) {}) _ = _
  rw [Work.foldl_steps]
  show (⟨logid, _⟩ : CalculateArgs) = _
  rw [Option.or_none]

theorem answered_calculate {logid val : Int32} {w : Work} (hreq : sendCalculate logid w = .ok req)
    (hv : CalculatorHandler.value w = .ok val) :
    Answered h (.calculate logid w) req (.ok (.number val)) (h.store logid val) := by
  have hresult : List.Forall₂ (Does CalculateResult.members 63)
      (CalculateResult.fields { success := some val }) [CalculateResult.setSuccess val] :=
    .cons (does_i32 (by decide) rfl) .nil
  refine call_roundtrip CalculatorProcessor.responds {} (CalculateArgs.does_fields ⟨logid, w⟩) hreq
    (by decide) CalculateResult.level_members hresult ?_ (fun args hargs => ?_) {}
    CalculateResult.outcome
  · exact List.forall_mem_singleton.2 ⟨_, rfl⟩
  · rw [foldl_steps_calculate] at hargs
    show processCalculate.respond 0 h args = _
    simp only [processCalculate, Method.of, hargs, CalculatorHandler.calculate, hv]
    rfl

theorem answered_invalid {logid : Int32} {w : Work} {io : InvalidOperation}
    (hreq : sendCalculate logid w = .ok req)
    (hv : CalculatorHandler.value w = .error (.invalid io)) (hio : io.why.length < 2 ^ 31) :
    Answered h (.calculate logid w) req (.error (.invalidOperation io)) h := by
  have hresult : List.Forall₂ (Does CalculateResult.members 63)
      (CalculateResult.fields { ouch := some io })
      [fun s => CalculateResult.setOuch ([InvalidOperation.setWhatOp io.whatOp,
        InvalidOperation.setWhy io.why].foldl (fun s step => step s) (s.ouch.getD {})) s] :=
    .cons (does_struct (by decide) (InvalidOperation.does_fields (by decide) io) rfl) .nil
  refine call_roundtrip CalculatorProcessor.responds {} (CalculateArgs.does_fields ⟨logid, w⟩) hreq
    (by decide) CalculateResult.level_members hresult ?_ (fun args hargs => ?_) {}
    CalculateResult.outcome
  · refine List.forall_mem_singleton.2 (exists_field_struct ?_ 1)
    exact List.forall_mem_cons.2
      ⟨⟨_, rfl⟩, List.forall_mem_singleton.2 (exists_field_string hio 2)⟩
  · rw [foldl_steps_calculate] at hargs
    show processCalculate.respond 0 h args = _
    simp only [processCalculate, Method.of, hargs, CalculatorHandler.calculate, hv]
    rfl

theorem killed_calculate {logid : Int32} {w : Work} (hreq : sendCalculate logid w = .ok req)
    (hv : CalculatorHandler.value w = .error .killed) (rest : Str) :
    CalculatorProcessor.process h (req ++ rest) = .ok (.killed, rest) := by
  refine process_sendCall CalculatorProcessor.responds (.inl rfl) {}
    (CalculateArgs.does_fields ⟨logid, w⟩) hreq (fun args hargs => ?_) rest
  rw [foldl_steps_calculate] at hargs
  show processCalculate.respond 0 h args = _
  simp only [processCalculate, Method.of, hargs, CalculatorHandler.calculate, hv]
  rfl

theorem answered_getStruct {ret : SharedStruct} {key : Int32} (hh : h.Short)
    (hreq : sendGetStruct key = .ok req) :
    Answered h (.getStruct ret key) req (.ok (.struct (h.getStruct key).1)) (h.getStruct key).2 := by
  have hresult : List.Forall₂ (Does (GetStructResult.members ret) 63)
      (GetStructResult.fields ⟨some (h.getStruct key).1⟩)
      [fun s => GetStructResult.setSuccess ([SharedStruct.setKey (h.getStruct key).1.key,
        SharedStruct.setValue (h.getStruct key).1.value].foldl (fun s step => step s)
          (s.success.getD ret)) s] :=
    .cons (does_struct (by decide) (SharedStruct.does_fields (by decide) _) rfl) .nil
  refine call_roundtrip CalculatorProcessor.responds {} (GetStructArgs.does_fields ⟨key⟩) hreq
    (by decide) (GetStructResult.level_members ret) hresult ?_ (fun args hargs => ?_) {}
    GetStructResult.outcome
  · have hshort : (h.getStruct key).1.value.length < 2 ^ 31 := by
      rw [h.getStruct_fst]
      exact hh key
    refine List.forall_mem_singleton.2 (exists_field_struct ?_ 0)
    exact List.forall_mem_cons.2
      ⟨⟨_, rfl⟩, List.forall_mem_singleton.2 (exists_field_string hshort 2)⟩
  · show processGetStruct.respond 0 h args = _
    simp only [processGetStruct, Method.of, hargs]
    rfl

theorem process_zip (hreq : sendZip = .ok req) (rest : Str) :
    CalculatorProcessor.process h (req ++ rest) = .ok (.answered h [], rest) := by
  have hargs : List.Forall₂ (Does ([] : List (Member Unit)) 63) [] [] := .nil
  exact process_sendCall CalculatorProcessor.responds (.inr rfl) () hargs hreq (fun _ _ => rfl) rest

theorem answer_of_answered (ho : c.oneway = none) (ha : Answered h c req o h') :
    ∃ out, (∀ rest, calculator.process h (req ++ rest) = .ok (.answered h' out, rest)) ∧
      Remote.Answer calculator c o out := by
  obtain ⟨out, hout, hrecv⟩ := ha
  exact ⟨out, hout, (Remote.answer_iff ho).2 hrecv⟩

/-- **A request does on the server what the call does on the handler.** -/
theorem transparent : Remote.Transparent calculator perform CalculatorHandler.Short where
  good := CalculatorHandler.short_empty
  good_perform _ _ _ _ hh hp := short_of_perform hh hp
  process_nil _ := rfl
  recv_nil c hc := by
    cases c with
    | zip => cases hc
    | _ => rfl
  reads_process h := ⟨_, reads_process CalculatorProcessor.responds h⟩
  reads_recv c := by
    cases c with
    | zip => exact ⟨_, .pure _⟩
    | ping => exact exists_reads_recvReply (reads_readStruct PingResult.level_members {})
    | add _ _ => exact exists_reads_recvReply (reads_readStruct AddResult.level_members {})
    | calculate _ _ => exact exists_reads_recvReply (reads_readStruct CalculateResult.level_members {})
    | getStruct ret _ =>
      exact exists_reads_recvReply (reads_readStruct (GetStructResult.level_members ret) {})
  steady_process := waits_process CalculatorProcessor.waits
  steady_recv c := by
    cases c with
    | zip => exact .pure _
    | ping =>
      exact waits_recvReply (reads_readStruct PingResult.level_members {})
        (waits_readStruct PingResult.level_members {})
    | add _ _ =>
      exact waits_recvReply (reads_readStruct AddResult.level_members {})
        (waits_readStruct AddResult.level_members {})
    | calculate _ _ =>
      exact waits_recvReply (reads_readStruct CalculateResult.level_members {})
        (waits_readStruct CalculateResult.level_members {})
    | getStruct ret _ =>
      exact waits_recvReply (reads_readStruct (GetStructResult.level_members ret) {})
        (waits_readStruct (GetStructResult.level_members ret) {})
  answers h c o h' req hh hreq hp := by
    cases c with
    | zip =>
      cases hp
      exact ⟨[], process_zip hreq, rfl, rfl⟩
    | ping =>
      cases hp
      exact answer_of_answered rfl (answered_ping hreq)
    | add num1 num2 =>
      cases hp
      exact answer_of_answered rfl (answered_add hreq)
    | getStruct ret key =>
      cases hp
      exact answer_of_answered rfl (answered_getStruct hh hreq)
    | calculate logid w =>
      cases hv : CalculatorHandler.value w with
      | ok val =>
        cases hp.symm.trans (perform_calculate_ok hv)
        exact answer_of_answered rfl (answered_calculate hreq hv)
      | error e =>
        cases e with
        | killed => cases hp.symm.trans (perform_calculate_killed hv)
        | invalid io =>
          cases hp.symm.trans (perform_calculate_invalid hv)
          refine answer_of_answered rfl (answered_invalid hreq hv ?_)
          -- Both texts of an `InvalidOperation` are short enough to be written.
          have hwhy := (CalculatorHandler.of_value_eq_invalid hv).2
          simp only [List.mem_cons, List.not_mem_nil, or_false] at hwhy
          rcases hwhy with hwhy | hwhy <;> rw [hwhy] <;> decide
  kills h c req hh hreq hp rest := by
    obtain ⟨logid, w, rfl, hw⟩ := perform_eq_none_iff.1 hp
    exact killed_calculate hreq (CalculatorHandler.value_eq_killed_iff.2 hw) rest
  oneway h c o _ ho := by
    cases c with
    | zip =>
      cases ho
      exact ⟨h, rfl⟩
    | _ => cases ho

end Transparent

end Tutorial
end MongoUtils
