import MongoUtils.Library.Remote
import MongoUtils.Tutorial.Structures

/-!
# Messages

A call is a message with the arguments in a structure, and so is its answer.

* `Message`, `readMessageBegin`: what stands in front of the structure, with a version or without
  one (`reads_readMessageBegin`);
* `Method`: what the server does with the arguments of a function. It takes every structure with the
  fields in any order (`Method.of`);
* `process`: the server takes a message, finds the function in its maps and answers. `reads_process`
  says what each stream makes it do;
* `recvReply`: how a client reads the answer.
-/

namespace MongoUtils
namespace Tutorial

open Decoding
open Remote (Served)

/-! ### What stands in front -/

structure Message where
  name : Str
  type : TMessageType
  seqid : Int32

/-- `VERSION_1` -/
def version1 : UInt32 := 0x80010000

/-- `VERSION_MASK` -/
def versionMask : UInt32 := 0xffff0000

/-- `writeMessageBegin(name, messageType, seqid)`, with `strict_write_`. -/
def writeMessageBegin (m : Message) : Written := do
  let version := (version1 ||| m.type.toUInt32).toInt32
  let name ← writeString m.name
  return writeI32 version ++ (name ++ writeI32 m.seqid)

/-- `readMessageBegin(name, messageType, seqid)`, without `strict_read_`. -/
def readMessageBegin : Read Message := do
  let sz ← readI32
  if sz < 0 then
    if sz.toUInt32 &&& versionMask = version1 then do
      let name ← readString
      let seqid ← readI32
      return ⟨name, (sz.toUInt32 &&& 0xff).toUInt8, seqid⟩
    else
      fail .badVersion
  else do
    let name ← readStringBody sz
    let type ← readByte
    let seqid ← readI32
    return ⟨name, type, seqid⟩

/-- What can stand in front of a message: the form with a version, in which one of the bytes is not
looked at, and the older form. -/
def Head (m : Message) (xs : Str) : Prop :=
  ∃ name, writeString m.name = .ok name ∧
    ((∃ sz : Int32, sz.toUInt32 &&& versionMask = version1 ∧
        m.type = (sz.toUInt32 &&& 0xff).toUInt8 ∧ xs = writeI32 sz ++ (name ++ writeI32 m.seqid)) ∨
      xs = name ++ m.type :: writeI32 m.seqid)

/-- A number with the version is negative. -/
theorem neg_of_version {sz : Int32} (h : sz.toUInt32 &&& versionMask = version1) : sz < 0 := by
  have hle : version1.toNat ≤ sz.toUInt32.toNat := by
    rw [← h, UInt32.toNat_and]
    exact Nat.and_le_left
  rw [Int32.lt_iff_toInt_lt, Int32.toInt_zero]
  have hbig : (2147549184 : ℕ) ≤ sz.toUInt32.toNat := hle
  have htoInt : sz.toInt = sz.toBitVec.toInt := rfl
  have htoNat : sz.toUInt32.toNat = sz.toBitVec.toNat := rfl
  rw [htoInt, BitVec.toInt_eq_toNat_cond]
  have hlt := sz.toBitVec.isLt
  split <;> omega

theorem reads_versioned (t : TMessageType) : Reads (do
      let name ← readString
      let seqid ← readI32
      return (⟨name, t, seqid⟩ : Message)) fun xs m =>
    m.type = t ∧ ∃ name, writeString m.name = .ok name ∧ xs = name ++ writeI32 m.seqid := by
  refine (reads_readString.bind fun name => reads_readI32.bind fun seqid => Reads.pure _).congr
    fun xs m => ?_
  constructor
  · rintro ⟨bytes, name, _, hname, ⟨_, seqid, _, rfl, ⟨rfl, rfl⟩, rfl⟩, rfl⟩
    exact ⟨rfl, bytes, hname, by rw [List.append_nil]⟩
  · rintro ⟨rfl, bytes, hname, rfl⟩
    exact ⟨bytes, m.name, _, hname, ⟨_, m.seqid, [], rfl, ⟨rfl, rfl⟩, (List.append_nil _).symm⟩, rfl⟩

theorem reads_unversioned (sz : Int32) : Reads (do
      let name ← readStringBody sz
      let type ← readByte
      let seqid ← readI32
      return (⟨name, type, seqid⟩ : Message)) fun xs m =>
    sz.toInt = m.name.length ∧ xs = m.name ++ m.type :: writeI32 m.seqid := by
  refine ((reads_readStringBody sz).bind fun name => reads_readByte.bind fun type =>
    reads_readI32.bind fun seqid => Reads.pure _).congr fun xs m => ?_
  constructor
  · rintro ⟨_, name, _, ⟨rfl, hsz⟩, ⟨_, type, _, rfl, ⟨_, seqid, _, rfl, ⟨rfl, rfl⟩, rfl⟩, rfl⟩, rfl⟩
    exact ⟨hsz, by rw [List.append_nil, List.singleton_append]⟩
  · rintro ⟨hsz, rfl⟩
    exact ⟨_, m.name, _, ⟨rfl, hsz⟩, ⟨_, m.type, _, rfl, ⟨_, m.seqid, [], rfl, ⟨rfl, rfl⟩,
      (List.append_nil _).symm⟩, rfl⟩, rfl⟩

/-- **What `readMessageBegin` takes**: both forms, and nothing else. -/
theorem reads_readMessageBegin : Reads readMessageBegin fun xs m => Head m xs := by
  refine (reads_readI32.bind fun sz => Reads.ite (fun _ => Reads.ite
    (fun _ => reads_versioned _) fun _ => Reads.fail _) fun _ => reads_unversioned sz).congr
      fun xs m => ?_
  constructor
  · rintro ⟨_, sz, ys, rfl, hys, rfl⟩
    by_cases hneg : sz < 0
    · rw [if_pos hneg] at hys
      by_cases hversion : sz.toUInt32 &&& versionMask = version1
      · rw [if_pos hversion] at hys
        obtain ⟨htype, name, hname, rfl⟩ := hys
        exact ⟨name, hname, .inl ⟨sz, hversion, htype, rfl⟩⟩
      · rw [if_neg hversion] at hys
        exact hys.elim
    · rw [if_neg hneg] at hys
      obtain ⟨hsz, rfl⟩ := hys
      refine ⟨writeI32 sz ++ m.name, writeString_eq_ok.2 ⟨sz, hsz, rfl⟩, .inr ?_⟩
      rw [List.append_assoc]
  · rintro ⟨name, hname, ⟨sz, hversion, htype, rfl⟩ | rfl⟩
    · refine ⟨_, sz, _, rfl, ?_, rfl⟩
      rw [if_pos (neg_of_version hversion), if_pos hversion]
      exact ⟨htype, name, hname, rfl⟩
    · obtain ⟨sz, hsz, rfl⟩ := writeString_eq_ok.1 hname
      have hneg : ¬ sz < 0 := by
        rw [Int32.lt_iff_toInt_lt, Int32.toInt_zero]
        omega
      refine ⟨_, sz, _, rfl, ?_, by rw [List.append_assoc]⟩
      rw [if_neg hneg]
      exact ⟨hsz, rfl⟩

theorem waits_readMessageBegin : Waits readMessageBegin := by
  refine waits_readI32.bind reads_readI32 fun sz => .ite (fun _ => .ite (fun _ => ?_)
    fun _ => .fail _) fun _ => ?_
  · exact waits_readString.bind reads_readString fun _ =>
      waits_readI32.bind reads_readI32 fun _ => .pure _
  · exact (waits_readStringBody sz).bind (reads_readStringBody sz) fun _ =>
      waits_readByte.bind reads_readByte fun _ => waits_readI32.bind reads_readI32 fun _ => .pure _

/-- What is written in front of a message of these types is read again. -/
theorem head_of_writeMessageBegin {m : Message} {xs : Str}
    (ht : m.type ∈ [TMessageType.call, TMessageType.reply, TMessageType.exception, TMessageType.oneway])
    (h : writeMessageBegin m = .ok xs) : Head m xs := by
  obtain ⟨name, hname, hxs⟩ := Fallible.bind_eq_ok.1 h
  obtain rfl := Except.ok.inj hxs
  refine ⟨name, hname, .inl ⟨_, ?_, ?_, rfl⟩⟩
  · simp only [List.mem_cons, List.not_mem_nil, or_false] at ht
    rcases ht with ht | ht | ht | ht <;> rw [ht] <;> rfl
  · simp only [List.mem_cons, List.not_mem_nil, or_false] at ht
    rcases ht with ht | ht | ht | ht <;> rw [ht] <;> rfl

/-- A message with a structure behind it. -/
def writeMessage (m : Message) (struct : Written) : Written := do
  let head ← writeMessageBegin m
  let struct ← struct
  return head ++ struct

theorem exists_writeMessage {m : Message} (h : m.name.length < 2 ^ 31) (body : Str) :
    ∃ out, writeMessage m (.ok body) = .ok out := by
  obtain ⟨name, hname⟩ := exists_writeString h
  refine ⟨writeI32 (version1 ||| m.type.toUInt32).toInt32 ++ (name ++ writeI32 m.seqid) ++ body, ?_⟩
  simp only [writeMessage, writeMessageBegin, hname]
  rfl

/-! ### The server -/

section Server

variable {η α : Type}

/-- What the server does when the arguments are in these fields, or how the answer cannot be written. -/
abbrev Response (η : Type) : Type := Except ProtocolError (Served η UInt8)

/-- `r` takes a structure and does what `respond` says of its fields. -/
def Responds (r : Read (Served η UInt8)) (respond : List Field → Response η) : Prop :=
  Reads r fun xs served => ∃ fs, Fields (Encoding 63) fs ∧ xs = writeFields fs ∧
    respond fs = .ok served

/-- A function of a `processMap_`: `process seqid h` reads the arguments and does what `respond` says of
the fields. -/
structure Method (η : Type) where
  name : Str
  process : Int32 → η → Read (Served η UInt8)
  respond : Int32 → η → List Field → Response η
  responds : ∀ seqid h, Responds (process seqid h) (respond seqid h)
  waits : ∀ seqid h, Waits (process seqid h)

/-- `args.read(iprot)`, and what follows. -/
def Method.of (name : Str) (members : List (Member α)) (hlevel : ∀ m ∈ members, m.level ≤ 63) (args : α)
    (respond : Int32 → η → α → Response η) : Method η where
  name := name
  process seqid h := do
    let args ← readStruct members recursionLimit args
    lift (respond seqid h args)
  respond seqid h fs := respond seqid h (fs.foldl (fun s f => assign members 63 f s) args)
  responds seqid h := by
    refine ((reads_readStruct hlevel args).bind fun args => Reads.lift _).congr fun xs served => ?_
    constructor
    · rintro ⟨_, _, _, ⟨fs, hfs, rfl, rfl⟩, ⟨rfl, h⟩, rfl⟩
      exact ⟨fs, hfs, List.append_nil _, h⟩
    · rintro ⟨fs, hfs, rfl, h⟩
      exact ⟨_, _, [], ⟨fs, hfs, rfl, rfl⟩, ⟨rfl, h⟩, (List.append_nil _).symm⟩
  waits _ _ := (waits_readStruct hlevel args).bind (reads_readStruct hlevel args) fun _ => .lift _

/-- `dispatchCall`: a function that is not in the map is left to the class above. -/
def dispatchCall (processMap : List (Method η)) (next : Message → η → Read (Served η UInt8))
    (m : Message) (h : η) : Read (Served η UInt8) :=
  match processMap.find? (fun f => f.name = m.name) with
  | some f => f.process m.seqid h
  | none => next m h

/-- What `dispatchCall` does when the structure has these fields. -/
def dispatchFields (processMap : List (Method η)) (next : Message → η → List Field → Response η)
    (m : Message) (h : η) (fs : List Field) : Response η :=
  match processMap.find? (fun f => f.name = m.name) with
  | some f => f.respond m.seqid h fs
  | none => next m h fs

/-- The answer to a function that is in no map. -/
def unknownMethod (m : Message) (h : η) : Except ProtocolError (Served η UInt8) := do
  let x : TApplicationException :=
    ⟨ascii "Invalid method name: '" ++ m.name ++ ascii "'", TApplicationException.unknownMethod⟩
  let out ← writeMessage ⟨m.name, TMessageType.exception, m.seqid⟩ x.write
  return .answered h out

/-- `dispatchCall` when there is no class above. -/
def skipCall (m : Message) (h : η) : Read (Served η UInt8) := do
  skip recursionLimit TType.struct
  lift (unknownMethod m h)

/-- `process` of `TDispatchProcessor`. -/
def process (dispatch : Message → η → Read (Served η UInt8)) (h : η) : Read (Served η UInt8) := do
  let m ← readMessageBegin
  if m.type ≠ TMessageType.call ∧ m.type ≠ TMessageType.oneway then
    return .refused
  else
    dispatch m h

variable {processMap : List (Method η)} {next dispatch : Message → η → Read (Served η UInt8)}
  {respond : Message → η → List Field → Response η} {m : Message} {h : η}

theorem responds_dispatchCall (hnext : Responds (next m h) (respond m h)) :
    Responds (dispatchCall processMap next m h) (dispatchFields processMap respond m h) := by
  unfold dispatchCall dispatchFields
  cases processMap.find? (fun f => f.name = m.name) with
  | some f => exact f.responds m.seqid h
  | none => exact hnext

theorem waits_dispatchCall (hnext : Waits (next m h)) : Waits (dispatchCall processMap next m h) := by
  unfold dispatchCall
  cases processMap.find? (fun f => f.name = m.name) with
  | some f => exact f.waits m.seqid h
  | none => exact hnext

theorem responds_skipCall (m : Message) (h : η) : Responds (skipCall m h) fun _ => unknownMethod m h := by
  refine ((reads_skip recursionLimit TType.struct).bind fun _ => Reads.lift _).congr
    fun xs served => ?_
  constructor
  · rintro ⟨_, _, _, ⟨fs, hfs, rfl⟩, ⟨rfl, h⟩, rfl⟩
    exact ⟨fs, hfs, List.append_nil _, h⟩
  · rintro ⟨fs, hfs, rfl, h⟩
    exact ⟨_, (), [], ⟨fs, hfs, rfl⟩, ⟨rfl, h⟩, (List.append_nil _).symm⟩

theorem waits_skipCall (m : Message) (h : η) : Waits (skipCall m h) :=
  (waits_skip _ _).bind (reads_skip _ _) fun _ => .lift _

/-- **What a stream makes the server do**: it takes a message and refuses its type, or takes a structure
behind it and responds. -/
theorem reads_process (hdispatch : ∀ m h, Responds (dispatch m h) (respond m h)) (h : η) :
    Reads (process dispatch h) fun xs served => ∃ m head, Head m head ∧
      if m.type ≠ TMessageType.call ∧ m.type ≠ TMessageType.oneway then
        xs = head ∧ served = .refused
      else
        ∃ fs, Fields (Encoding 63) fs ∧ xs = head ++ writeFields fs ∧ respond m h fs = .ok served := by
  refine (reads_readMessageBegin.bind fun m => Reads.ite (fun _ => Reads.pure _)
    fun _ => hdispatch m h).congr fun xs served => ?_
  constructor
  · rintro ⟨head, m, ys, hhead, hys, rfl⟩
    refine ⟨m, head, hhead, ?_⟩
    by_cases ht : m.type ≠ TMessageType.call ∧ m.type ≠ TMessageType.oneway
    · rw [if_pos ht] at hys ⊢
      obtain ⟨rfl, rfl⟩ := hys
      exact ⟨List.append_nil _, rfl⟩
    · rw [if_neg ht] at hys ⊢
      obtain ⟨fs, hfs, rfl, hrespond⟩ := hys
      exact ⟨fs, hfs, rfl, hrespond⟩
  · rintro ⟨m, head, hhead, h⟩
    by_cases ht : m.type ≠ TMessageType.call ∧ m.type ≠ TMessageType.oneway
    · rw [if_pos ht] at h
      obtain ⟨rfl, rfl⟩ := h
      exact ⟨xs, m, [], hhead, by rw [if_pos ht]; exact ⟨rfl, rfl⟩, (List.append_nil _).symm⟩
    · rw [if_neg ht] at h
      obtain ⟨fs, hfs, rfl, hrespond⟩ := h
      exact ⟨head, m, _, hhead, by rw [if_neg ht]; exact ⟨fs, hfs, rfl, hrespond⟩, rfl⟩

theorem waits_process (hdispatch : ∀ m h, Waits (dispatch m h)) (h : η) :
    Waits (process dispatch h) :=
  waits_readMessageBegin.bind reads_readMessageBegin fun m => .ite (fun _ => .pure _)
    fun _ => hdispatch m h

end Server

/-! ### The client -/

/-- What the functions of the client throw, besides the errors of the protocol. -/
inductive Thrown
  | application (x : TApplicationException)
  | invalidOperation (io : InvalidOperation)
  deriving DecidableEq

section Client

variable {ρ α : Type}

/-- `send_...`: the message with the arguments. -/
def sendCall (name : Str) (type : TMessageType) (args : Written) : Written :=
  writeMessage ⟨name, type, 0⟩ args

/-- `if (p) { iprot_->skip(T_STRUCT); ... }` -/
def skipIf (p : Prop) [Decidable p] : Read Unit :=
  if p then skip recursionLimit TType.struct else pure ()

/-- `recv_...`: `result` is the `read` of the result, and `outcome` what is made of it. A message of
another type or function is skipped, and the result is read from what follows. -/
def recvReply (name : Str) (result : Read ρ) (outcome : ρ → Except Thrown α) :
    Read (Except Thrown α) := do
  let m ← readMessageBegin
  if m.type = TMessageType.exception then do
    let x ← TApplicationException.read {}
    return .error (.application x)
  else do
    skipIf (m.type ≠ TMessageType.reply)
    skipIf (m.name ≠ name)
    let result ← result
    return outcome result

/-- `TApplicationException(MISSING_RESULT, ...)` -/
def missingResult (message : String) : Thrown :=
  .application ⟨ascii message, TApplicationException.missingResult⟩

theorem reads_skipIf (p : Prop) [Decidable p] : Reads (skipIf p) fun xs _ =>
    if p then Encoding recursionLimit TType.struct xs else xs = [] := by
  refine (Reads.ite (fun _ => reads_skip _ _) fun _ => Reads.pure ()).congr fun xs _ => ?_
  by_cases hp : p
  · rw [if_pos hp, if_pos hp]
  · rw [if_neg hp, if_neg hp]
    exact and_iff_left rfl

theorem waits_skipIf (p : Prop) [Decidable p] : Waits (skipIf p) :=
  .ite (fun _ => waits_skip _ _) fun _ => .pure _

theorem skipIf_neg {p : Prop} [Decidable p] (hp : ¬ p) : skipIf p = pure () := if_neg hp

variable {name : Str} {result : Read ρ} {outcome : ρ → Except Thrown α} {L : Str → ρ → Prop}

theorem exists_reads_recvReply (hresult : Reads result L) :
    ∃ L', Reads (recvReply name result outcome) L' :=
  ⟨_, reads_readMessageBegin.bind fun _ =>
    .ite (fun _ => (TApplicationException.reads_read {}).bind fun _ => .pure _) fun _ =>
      (reads_skipIf _).bind fun _ => (reads_skipIf _).bind fun _ => hresult.bind fun _ => .pure _⟩

theorem waits_recvReply (hresult : Reads result L) (hwaits : Waits result) :
    Waits (recvReply name result outcome) := by
  refine waits_readMessageBegin.bind reads_readMessageBegin fun m => .ite (fun _ => ?_) fun _ => ?_
  · exact (TApplicationException.waits_read {}).bind (TApplicationException.reads_read {}) fun _ =>
      .pure _
  · exact (waits_skipIf _).bind (reads_skipIf _) fun _ => (waits_skipIf _).bind (reads_skipIf _)
      fun _ => hwaits.bind hresult fun _ => .pure _

/-- **An answer that is written is read again.** -/
theorem recvReply_reply (hresult : Reads result L) {seqid : Int32} {xs body : Str} {r : ρ}
    (hbody : L body r) (hxs : writeMessage ⟨name, TMessageType.reply, seqid⟩ (.ok body) = .ok xs)
    (rest : Str) : recvReply name result outcome (xs ++ rest) = .ok (outcome r, rest) := by
  obtain ⟨head, hhead, hxs⟩ := Fallible.bind_eq_ok.1 hxs
  obtain rfl := Except.ok.inj hxs
  have hm : readMessageBegin (head ++ (body ++ rest)) = _ :=
    reads_readMessageBegin.eq_ok (head_of_writeMessageBegin (by simp) hhead)
  have hr : (do
      let result ← result
      return outcome result) (body ++ rest) = _ := bind_apply_ok (hresult.eq_ok hbody)
  rw [List.append_assoc]
  refine (bind_apply_ok hm).trans ?_
  simp only
  rw [if_neg (by decide), skipIf_neg (by simp), skipIf_neg (by simp)]
  exact hr

end Client

/-! ### A call over the wire -/

section Wire

variable {η α ρ β : Type} {members : List (Member α)} {results : List (Member ρ)}
  {dispatch : Message → η → Read (Served η UInt8)} {respond : Message → η → List Field → Response η}
  {name : Str} {type : TMessageType} {fs gs : List WrittenField} {steps : List (α → α)}
  {rsteps : List (ρ → ρ)} {h h' : η} {req : Str} {served : Served η UInt8}

/-- The answer with this result. -/
def reply (name : Str) (seqid : Int32) (result : Written) (h : η) :
    Except ProtocolError (Served η UInt8) := do
  let out ← writeMessage ⟨name, TMessageType.reply, seqid⟩ result
  return .answered h out

/-- **A request does what the function responds to its arguments.** -/
theorem process_sendCall (hdispatch : ∀ m h, Responds (dispatch m h) (respond m h))
    (htype : type = TMessageType.call ∨ type = TMessageType.oneway) (args : α)
    (hfs : List.Forall₂ (Does members 63) fs steps)
    (hreq : sendCall name type (writeStruct fs) = .ok req)
    (hrespond : ∀ gs : List Field, gs.foldl (fun s f => assign members 63 f s) args =
        steps.foldl (fun s step => step s) args → respond ⟨name, type, 0⟩ h gs = .ok served)
    (rest : Str) : process dispatch h (req ++ rest) = .ok (served, rest) := by
  obtain ⟨head, hhead, hreq⟩ := Fallible.bind_eq_ok.1 hreq
  obtain ⟨body, hbody, hreq⟩ := Fallible.bind_eq_ok.1 hreq
  obtain rfl := Except.ok.inj hreq
  obtain ⟨gs, rfl, rfl⟩ := writeStruct_eq_ok.1 hbody
  obtain ⟨hgs, hfold⟩ := fields_of_does hfs
  have hmem : type ∈ [TMessageType.call, TMessageType.reply, TMessageType.exception,
      TMessageType.oneway] := by
    rcases htype with rfl | rfl <;> simp
  refine (reads_process hdispatch h).eq_ok ⟨_, head, head_of_writeMessageBegin hmem hhead, ?_⟩
  rw [if_neg (by rcases htype with rfl | rfl <;> simp)]
  exact ⟨gs, hgs, rfl, hrespond gs (hfold args).symm⟩

/-- **The client reads the result that the server has written.** -/
theorem recvReply_writeStruct (hlevel : ∀ m ∈ results, m.level ≤ 63)
    (hgs : List.Forall₂ (Does results 63) gs rsteps) (hwritten : ∀ g ∈ gs, ∃ f, g = .ok f)
    (hname : name.length < 2 ^ 31) (seqid : Int32) (result : ρ) (outcome : ρ → Except Thrown β) :
    ∃ out, reply name seqid (writeStruct gs) h = .ok (.answered h out) ∧
      ∀ rest, recvReply name (readStruct results recursionLimit result) outcome (out ++ rest) =
        .ok (outcome (rsteps.foldl (fun s step => step s) result), rest) := by
  obtain ⟨body, hbody⟩ := exists_writeStruct hwritten
  obtain ⟨out, hout⟩ := exists_writeMessage (m := ⟨name, TMessageType.reply, seqid⟩) hname body
  refine ⟨out, by rw [reply, hbody, hout]; rfl, fun rest => ?_⟩
  obtain ⟨fs, rfl, rfl⟩ := writeStruct_eq_ok.1 hbody
  obtain ⟨hfs, hfold⟩ := fields_of_does hgs
  exact recvReply_reply (reads_readStruct hlevel result) ⟨fs, hfs, rfl, hfold result⟩ hout rest

/-- **A call over the wire**: the server responds to the arguments, and the client reads the result. -/
theorem call_roundtrip (hdispatch : ∀ m h, Responds (dispatch m h) (respond m h)) (args : α)
    (hfs : List.Forall₂ (Does members 63) fs steps)
    (hreq : sendCall name TMessageType.call (writeStruct fs) = .ok req)
    (hname : name.length < 2 ^ 31) (hlevel : ∀ m ∈ results, m.level ≤ 63)
    (hgs : List.Forall₂ (Does results 63) gs rsteps) (hwritten : ∀ g ∈ gs, ∃ f, g = .ok f)
    (hrespond : ∀ args' : List Field, args'.foldl (fun s f => assign members 63 f s) args =
        steps.foldl (fun s step => step s) args →
      respond ⟨name, TMessageType.call, 0⟩ h args' = reply name 0 (writeStruct gs) h')
    (result : ρ) (outcome : ρ → Except Thrown β) : ∃ out,
      (∀ rest, process dispatch h (req ++ rest) = .ok (.answered h' out, rest)) ∧
      ∀ rest, recvReply name (readStruct results recursionLimit result) outcome (out ++ rest) =
        .ok (outcome (rsteps.foldl (fun s step => step s) result), rest) := by
  obtain ⟨out, hout, hrecv⟩ :=
    recvReply_writeStruct (h := h') hlevel hgs hwritten hname 0 result outcome
  refine ⟨out, process_sendCall hdispatch (.inl rfl) args hfs hreq fun args' hargs => ?_, hrecv⟩
  rw [hrespond args' hargs, hout]

end Wire

end Tutorial
end MongoUtils
