import MongoUtils.IpLib.SplitString
import MongoUtils.Library.Decoding
import MongoUtils.Library.Positional

/-!
# The binary protocol

`TBinaryProtocol` of Thrift 0.9.3 (`env/thrift-0.9.3.tar.gz`), which `tutorial/server.cpp` and
`tutorial/client.cpp` use with its defaults: no limits on strings and containers, the messages with
a version in front.

* `TType`, `TMessageType`: the types of values and messages, as they are on the wire;
* `writeI16`, `writeI32`, `writeString`, .. with `readI16`, `readI32`, `readString`, ..: each reader
  takes exactly what its writer writes (`reads_readI32`, ..);
* `skip`: passes over a value. `Encoding d t` are the encodings of the values of type `t` with at
  most `d` values in each other, and `skip` takes exactly these (`reads_skip`);
* `Field`, `readFields`: a structure with the fields in any order. What it takes are the encodings of
  lists of fields, and what it returns is what the fields do one after the other
  (`reads_readFields`).
-/

namespace MongoUtils
namespace Tutorial

open Decoding

/-- What ends the reading or writing of a value: a `TTransportException` when the stream has ended, or
a `TProtocolException`. -/
inductive ProtocolError
  | endOfFile
  | negativeSize
  | sizeLimit
  | badVersion
  | depthLimit
  deriving DecidableEq

/-- A reader on a `TTransport`. -/
abbrev Read (α : Type) : Type := Reader ProtocolError UInt8 α

/-- What a writer puts on a `TTransport`. -/
abbrev Written : Type := Except ProtocolError Str

/-- `trans_->readAll(buf, n)` -/
def readAll (n : ℕ) : Read Str := take .endOfFile n

/-! ### Types -/

/-- The type of a value: any byte can stand there. -/
abbrev TType : Type := UInt8

namespace TType

def stop : TType := 0
def bool : TType := 2
def byte : TType := 3
def double : TType := 4
def i16 : TType := 6
def i32 : TType := 8
def i64 : TType := 10
def string : TType := 11
def struct : TType := 12
def map : TType := 13
def set : TType := 14
def list : TType := 15

end TType

/-- The type of a message. -/
abbrev TMessageType : Type := UInt8

namespace TMessageType

def call : TMessageType := 1
def reply : TMessageType := 2
def exception : TMessageType := 3
def oneway : TMessageType := 4

end TMessageType

/-! ### Numbers and strings -/

/-- The number whose bytes these are, the most significant one first. -/
def bigEndian (bs : List UInt8) : ℕ := Positional.value 256 (bs.map UInt8.toNat)

def writeI16 (i : Int16) : Str :=
  let n := i.toUInt16.toNat
  [.ofNat (n / 256), .ofNat n]

def writeI32 (i : Int32) : Str :=
  let n := i.toUInt32.toNat
  [.ofNat (n / 16777216), .ofNat (n / 65536), .ofNat (n / 256), .ofNat n]

def writeString (s : Str) : Written :=
  if s.length < 2 ^ 31 then .ok (writeI32 (.ofNat s.length) ++ s) else .error .sizeLimit

def readByte : Read UInt8 := do
  let bs ← readAll 1
  return .ofNat (bigEndian bs)

def readI16 : Read Int16 := do
  let bs ← readAll 2
  return (UInt16.ofNat (bigEndian bs)).toInt16

def readI32 : Read Int32 := do
  let bs ← readAll 4
  return (UInt32.ofNat (bigEndian bs)).toInt32

/-- `readStringBody(str, size)` -/
def readStringBody (size : Int32) : Read Str :=
  if size < 0 then fail .negativeSize else readAll size.toInt.toNat

def readString : Read Str := do
  let size ← readI32
  readStringBody size

section Numbers

variable {as bs : List UInt8}

theorem digits_toNat (bs : List UInt8) : Positional.Digits 256 (bs.map UInt8.toNat) := by
  intro d hd
  obtain ⟨b, -, rfl⟩ := List.mem_map.1 hd
  exact b.toNat_lt

theorem bigEndian_lt (bs : List UInt8) : bigEndian bs < 256 ^ bs.length := by
  have h := Positional.value_lt_pow (digits_toNat bs)
  rwa [List.length_map] at h

/-- Bytes of one length are determined by their number. -/
theorem bigEndian_inj (hlen : as.length = bs.length) (h : bigEndian as = bigEndian bs) :
    as = bs := by
  have hmap := (Positional.value_inj (digits_toNat as) (digits_toNat bs) (by simp [hlen])).1 h
  exact List.map_injective_iff.2 (fun _ _ => UInt8.toNat_inj.1) hmap

theorem bigEndian_writeI16 (i : Int16) : bigEndian (writeI16 i) = i.toUInt16.toNat := by
  have h := i.toUInt16.toNat_lt
  simp [writeI16, bigEndian, Positional.value_cons]
  omega

theorem bigEndian_writeI32 (i : Int32) : bigEndian (writeI32 i) = i.toUInt32.toNat := by
  have h := i.toUInt32.toNat_lt
  simp [writeI32, bigEndian, Positional.value_cons]
  omega

/-- The number that two bytes stand for. -/
def i16Of (bs : List UInt8) : Int16 := (UInt16.ofNat (bigEndian bs)).toInt16

/-- The number that four bytes stand for. -/
def i32Of (bs : List UInt8) : Int32 := (UInt32.ofNat (bigEndian bs)).toInt32

theorem eq_writeI16 (hlen : bs.length = 2) : bs = writeI16 (i16Of bs) := by
  refine bigEndian_inj hlen ?_
  have hlt := bigEndian_lt bs
  rw [hlen] at hlt
  rw [bigEndian_writeI16, i16Of, UInt16.toUInt16_toInt16, UInt16.toNat_ofNat_of_lt' hlt]

theorem eq_writeI32 (hlen : bs.length = 4) : bs = writeI32 (i32Of bs) := by
  refine bigEndian_inj hlen ?_
  have hlt := bigEndian_lt bs
  rw [hlen] at hlt
  rw [bigEndian_writeI32, i32Of, UInt32.toUInt32_toInt32, UInt32.toNat_ofNat_of_lt' hlt]

@[simp] theorem i16Of_writeI16 (i : Int16) : i16Of (writeI16 i) = i := by
  rw [i16Of, bigEndian_writeI16, UInt16.ofNat_toNat, Int16.toInt16_toUInt16]

@[simp] theorem i32Of_writeI32 (i : Int32) : i32Of (writeI32 i) = i := by
  rw [i32Of, bigEndian_writeI32, UInt32.ofNat_toNat, Int32.toInt32_toUInt32]

end Numbers

theorem reads_readAll (n : ℕ) : Reads (readAll n) fun xs a => xs.length = n ∧ a = xs :=
  Reads.take _ n

theorem reads_readByte : Reads readByte fun xs b => xs = [b] := by
  refine ((reads_readAll 1).bind fun bs => Reads.pure _).congr fun xs b => ?_
  constructor
  · rintro ⟨bs, _, _, ⟨hlen, rfl⟩, ⟨rfl, rfl⟩, rfl⟩
    obtain ⟨b, rfl⟩ := List.length_eq_one_iff.1 hlen
    simp [bigEndian, Positional.value_cons]
  · rintro rfl
    exact ⟨[b], [b], [], ⟨rfl, rfl⟩, ⟨rfl, by simp [bigEndian, Positional.value_cons]⟩, rfl⟩

theorem reads_readI16 : Reads readI16 fun xs i => xs = writeI16 i := by
  refine ((reads_readAll 2).bind fun bs => Reads.pure _).congr fun xs i => ?_
  constructor
  · rintro ⟨bs, _, _, ⟨hlen, rfl⟩, ⟨rfl, rfl⟩, rfl⟩
    rw [List.append_nil]
    exact eq_writeI16 hlen
  · rintro rfl
    exact ⟨writeI16 i, _, [], ⟨rfl, rfl⟩, ⟨rfl, (i16Of_writeI16 i).symm⟩, (List.append_nil _).symm⟩

theorem reads_readI32 : Reads readI32 fun xs i => xs = writeI32 i := by
  refine ((reads_readAll 4).bind fun bs => Reads.pure _).congr fun xs i => ?_
  constructor
  · rintro ⟨bs, _, _, ⟨hlen, rfl⟩, ⟨rfl, rfl⟩, rfl⟩
    rw [List.append_nil]
    exact eq_writeI32 hlen
  · rintro rfl
    exact ⟨writeI32 i, _, [], ⟨rfl, rfl⟩, ⟨rfl, (i32Of_writeI32 i).symm⟩, (List.append_nil _).symm⟩

theorem reads_readStringBody (size : Int32) :
    Reads (readStringBody size) fun xs s => s = xs ∧ size.toInt = s.length := by
  have hneg : size < 0 ↔ size.toInt < 0 := Int32.lt_iff_toInt_lt
  refine (Reads.ite (fun _ => Reads.fail _) fun _ => reads_readAll _).congr fun xs s => ?_
  by_cases h : size < 0
  · have hlt := hneg.1 h
    rw [if_pos h, false_iff]
    rintro ⟨-, hlen⟩
    omega
  · have hge := mt hneg.2 h
    rw [if_neg h]
    constructor
    · rintro ⟨hlen, rfl⟩
      exact ⟨rfl, by omega⟩
    · rintro ⟨rfl, hlen⟩
      exact ⟨by omega, rfl⟩

/-- A size that is written is read again. -/
theorem toInt_ofNat_length {s : Str} (h : s.length < 2 ^ 31) :
    (Int32.ofNat s.length).toInt = s.length := by
  rw [Int32.toInt_ofNat']
  exact Int.bmod_eq_of_le_mul_two (by omega) (by simp; omega)

theorem writeString_eq_ok {s xs : Str} : writeString s = .ok xs ↔
    ∃ size : Int32, size.toInt = s.length ∧ xs = writeI32 size ++ s := by
  unfold writeString
  constructor
  · intro h
    split at h
    · next hlt =>
      exact ⟨_, toInt_ofNat_length hlt, (Except.ok.inj h).symm⟩
    · cases h
  · rintro ⟨size, hsize, rfl⟩
    have hlt := size.toInt_lt
    have hshort : s.length < 2 ^ 31 := by omega
    rw [if_pos hshort, Int32.toInt_inj.1 ((toInt_ofNat_length hshort).trans hsize.symm)]

theorem reads_readString : Reads readString fun xs s => writeString s = .ok xs := by
  refine (reads_readI32.bind fun size => reads_readStringBody size).congr fun xs s => ?_
  rw [writeString_eq_ok]
  constructor
  · rintro ⟨_, size, ys, rfl, ⟨rfl, hsize⟩, rfl⟩
    exact ⟨size, hsize, rfl⟩
  · rintro ⟨size, hsize, rfl⟩
    exact ⟨_, size, s, rfl, ⟨rfl, hsize⟩, rfl⟩

/-! ### Fields -/

/-- A field as it is on the wire: its type and its number, and the encoding of its value. -/
structure Field where
  type : TType
  id : Int16
  bytes : Str

/-- `writeFieldBegin(name, fieldType, fieldId)`: the name is not written. -/
def writeFieldBegin (fieldType : TType) (fieldId : Int16) : Str := fieldType :: writeI16 fieldId

def writeFieldStop : Str := [TType.stop]

def Field.write (f : Field) : Str := writeFieldBegin f.type f.id ++ f.bytes

/-- A structure with these fields. -/
def writeFields (fs : List Field) : Str := fs.flatMap Field.write ++ writeFieldStop

def readFieldBegin : Read (TType × Int16) := do
  let fieldType ← readByte
  if fieldType = TType.stop then
    return (fieldType, 0)
  else do
    let fieldId ← readI16
    return (fieldType, fieldId)

/-- One pass of the loop of the `read` of a structure: `field` is the `switch` over the numbers of the
fields. -/
def pass {σ : Type} (field : TType → Int16 → σ → Read σ) (s : σ) : Read (Loop.Iter σ σ) := do
  let (fieldType, fieldId) ← readFieldBegin
  if fieldType = TType.stop then
    return .done s
  else do
    let s ← field fieldType fieldId s
    return .next s

/-- The loop of the `read` of a structure. -/
def readFields {σ : Type} (field : TType → Int16 → σ → Read σ) (s : σ) : Read σ :=
  loop .endOfFile (pass field) s

theorem reads_readFieldBegin : Reads readFieldBegin fun xs a =>
    xs = writeFieldStop ∧ a = (TType.stop, 0) ∨
      a.1 ≠ TType.stop ∧ xs = writeFieldBegin a.1 a.2 := by
  refine (reads_readByte.bind fun t => Reads.ite (fun _ => Reads.pure _) fun _ =>
    reads_readI16.bind fun id => Reads.pure _).congr fun xs a => ?_
  constructor
  · rintro ⟨_, t, ys, rfl, h, rfl⟩
    by_cases ht : t = TType.stop
    · rw [if_pos ht] at h
      obtain ⟨rfl, rfl⟩ := h
      subst ht
      exact .inl ⟨rfl, rfl⟩
    · rw [if_neg ht] at h
      obtain ⟨_, id, _, rfl, ⟨rfl, rfl⟩, rfl⟩ := h
      exact .inr ⟨ht, rfl⟩
  · rintro (⟨rfl, rfl⟩ | ⟨ha, rfl⟩)
    · exact ⟨_, TType.stop, [], rfl, by rw [if_pos rfl]; exact ⟨rfl, rfl⟩, rfl⟩
    · refine ⟨_, a.1, writeI16 a.2, rfl, ?_, rfl⟩
      rw [if_neg ha]
      exact ⟨_, a.2, [], rfl, ⟨rfl, rfl⟩, (List.append_nil _).symm⟩

section ReadFields

open Loop

variable {σ : Type} {field : TType → Int16 → σ → Read σ} {E : TType → Str → Prop}
  {assign : Field → σ → σ}

/-- The fields have types, and their values have encodings in `E`. -/
def Fields (E : TType → Str → Prop) (fs : List Field) : Prop :=
  ∀ f ∈ fs, f.type ≠ TType.stop ∧ E f.type f.bytes

/-- What one pass takes: the end of the structure or a field. -/
def Pass (E : TType → Str → Prop) (assign : Field → σ → σ) (s : σ) (xs : Str) (i : Iter σ σ) :
    Prop :=
  xs = writeFieldStop ∧ i = .done s ∨
    ∃ f : Field, f.type ≠ TType.stop ∧ E f.type f.bytes ∧ xs = f.write ∧ i = .next (assign f s)

theorem passes_iff {s s' : σ} {xs : Str} : Passes (Pass E assign) s xs s' ↔
    ∃ fs, Fields E fs ∧ xs = writeFields fs ∧ s' = fs.foldl (fun s f => assign f s) s := by
  constructor
  · intro h
    induction h with
    | done h =>
      rcases h with ⟨rfl, hi⟩ | ⟨f, -, -, -, hi⟩
      · obtain rfl := Iter.done.inj hi
        exact ⟨[], fun _ h => (by cases h), rfl, rfl⟩
      · cases hi
    | next h _ ih =>
      obtain ⟨fs, hfs, rfl, rfl⟩ := ih
      rcases h with ⟨-, hi⟩ | ⟨f, hf, hE, rfl, hi⟩
      · cases hi
      · obtain rfl := Iter.next.inj hi
        refine ⟨f :: fs, List.forall_mem_cons.2 ⟨⟨hf, hE⟩, hfs⟩, ?_, rfl⟩
        rw [writeFields, writeFields, List.flatMap_cons, List.append_assoc]
  · rintro ⟨fs, hfs, rfl, rfl⟩
    induction fs generalizing s with
    | nil => exact .done (.inl ⟨rfl, rfl⟩)
    | cons f fs ih =>
      obtain ⟨⟨hf, hE⟩, hfs⟩ := List.forall_mem_cons.1 hfs
      rw [writeFields, List.flatMap_cons, List.append_assoc]
      exact .next (.inr ⟨f, hf, hE, rfl, rfl⟩) (ih hfs)

/-- One pass takes what `Pass` says, when `field` takes the encodings in `E` and does what `assign`
says. -/
theorem reads_pass (h : ∀ t id s, Reads (field t id s) fun xs s' => E t xs ∧ s' = assign ⟨t, id, xs⟩ s)
    (s : σ) : Reads (pass field s) (Pass E assign s) := by
  refine (reads_readFieldBegin.bind fun a => Reads.ite (fun _ => Reads.pure _) fun _ =>
    (h a.1 a.2 s).bind fun s' => Reads.pure _).congr fun xs i => ?_
  constructor
  · rintro ⟨_, a, ys, ⟨rfl, rfl⟩ | ⟨ha, rfl⟩, hys, rfl⟩
    · rw [if_pos rfl] at hys
      obtain ⟨rfl, rfl⟩ := hys
      exact .inl ⟨rfl, rfl⟩
    · rw [if_neg ha] at hys
      obtain ⟨vs, _, _, ⟨hE, rfl⟩, ⟨rfl, rfl⟩, rfl⟩ := hys
      refine .inr ⟨⟨a.1, a.2, vs⟩, ha, hE, ?_, rfl⟩
      rw [List.append_nil, Field.write]
  · rintro (⟨rfl, rfl⟩ | ⟨f, hf, hE, rfl, rfl⟩)
    · exact ⟨_, _, [], .inl ⟨rfl, rfl⟩, by rw [if_pos rfl]; exact ⟨rfl, rfl⟩, rfl⟩
    · refine ⟨_, (f.type, f.id), f.bytes, .inr ⟨hf, rfl⟩, ?_, rfl⟩
      rw [if_neg hf]
      exact ⟨f.bytes, _, [], ⟨hE, rfl⟩, ⟨rfl, rfl⟩, (List.append_nil _).symm⟩

/-- **What the loop over the fields takes and returns.** -/
theorem reads_readFields (assign : Field → σ → σ)
    (h : ∀ t id s, Reads (field t id s) fun xs s' => E t xs ∧ s' = assign ⟨t, id, xs⟩ s) (s : σ) :
    Reads (readFields field s) fun xs s' =>
      ∃ fs, Fields E fs ∧ xs = writeFields fs ∧ s' = fs.foldl (fun s f => assign f s) s := by
  refine (Reads.loop (reads_pass h) (fun s xs i hi => ?_) s).congr fun xs s' => passes_iff
  rcases hi with ⟨rfl, -⟩ | ⟨f, -, -, rfl, -⟩
  · exact List.cons_ne_nil _ _
  · exact List.cons_ne_nil _ _

end ReadFields

/-! ### Values of any type -/

/-- `DEFAULT_RECURSION_LIMIT`: how many values `TInputRecursionTracker` lets be read in each other. -/
def recursionLimit : ℕ := 64

/-- The bytes of a value of a type without a length. -/
def width (t : TType) : Option ℕ :=
  if t = TType.bool ∨ t = TType.byte then some 1
  else if t = TType.i16 then some 2
  else if t = TType.i32 then some 4
  else if t = TType.i64 ∨ t = TType.double then some 8
  else none

/-- The size of a map, a set or a list. -/
def readSize : Read ℕ := do
  let size ← readI32
  if size < 0 then fail .negativeSize else return size.toInt.toNat

def readMapBegin : Read (TType × TType × ℕ) := do
  let keyType ← readByte
  let valType ← readByte
  let size ← readSize
  return (keyType, valType, size)

/-- `readSetBegin` does the same. -/
def readListBegin : Read (TType × ℕ) := do
  let elemType ← readByte
  let size ← readSize
  return (elemType, size)

/-- `skip(prot, type)`, when `d` values may still be read in each other. What is of another type has no
bytes. -/
def skip : ℕ → TType → Read Unit
  | 0, _ => fail .depthLimit
  | d + 1, t =>
      match width t with
      | some n => do
          let _ ← readAll n
          return ()
      | none =>
          if t = TType.string then do
            let _ ← readString
            return ()
          else if t = TType.struct then
            readFields (fun t _ _ => skip d t) ()
          else if t = TType.map then do
            let (keyType, valType, size) ← readMapBegin
            repeatN (do
              skip d keyType
              skip d valType) size
          else if t = TType.set ∨ t = TType.list then do
            let (elemType, size) ← readListBegin
            repeatN (skip d elemType) size
          else
            return ()

/-- The number of elements, and one part after the other. -/
def Elements (L : Str → Prop) (bs : Str) : Prop :=
  ∃ (size : Int32) (parts : List Str), size.toInt = parts.length ∧ (∀ p ∈ parts, L p) ∧
    bs = writeI32 size ++ parts.flatten

/-- The encodings of the values of type `t` with at most `d` values in each other. -/
def Encoding : ℕ → TType → Str → Prop
  | 0, _, _ => False
  | d + 1, t, bs =>
      match width t with
      | some n => bs.length = n
      | none =>
          if t = TType.string then ∃ s, writeString s = .ok bs
          else if t = TType.struct then ∃ fs, Fields (Encoding d) fs ∧ bs = writeFields fs
          else if t = TType.map then ∃ keyType valType elements, bs = keyType :: valType :: elements ∧
            Elements (fun p => ∃ key val, Encoding d keyType key ∧ Encoding d valType val ∧
              p = key ++ val) elements
          else if t = TType.set ∨ t = TType.list then ∃ elemType elements,
            bs = elemType :: elements ∧ Elements (Encoding d elemType) elements
          else bs = []

theorem reads_readSize : Reads readSize fun xs n =>
    ∃ size : Int32, size.toInt = n ∧ xs = writeI32 size := by
  refine (reads_readI32.bind fun size => Reads.ite (fun _ => Reads.fail _) fun _ =>
    Reads.pure _).congr fun xs n => ?_
  constructor
  · rintro ⟨_, size, ys, rfl, hys, rfl⟩
    split at hys
    · exact hys.elim
    · next hneg =>
      obtain ⟨rfl, rfl⟩ := hys
      rw [Int32.lt_iff_toInt_lt, Int32.toInt_zero] at hneg
      exact ⟨size, by omega, List.append_nil _⟩
  · rintro ⟨size, hsize, rfl⟩
    have hneg : ¬ size < 0 := by
      rw [Int32.lt_iff_toInt_lt, Int32.toInt_zero]
      omega
    refine ⟨_, size, [], rfl, ?_, (List.append_nil _).symm⟩
    rw [if_neg hneg]
    exact ⟨rfl, by omega⟩

theorem reads_readListBegin : Reads readListBegin fun xs a =>
    ∃ size : Int32, size.toInt = a.2 ∧ xs = a.1 :: writeI32 size := by
  refine (reads_readByte.bind fun t => reads_readSize.bind fun n => Reads.pure _).congr
    fun xs a => ?_
  constructor
  · rintro ⟨_, t, _, rfl, ⟨_, n, _, ⟨size, hsize, rfl⟩, ⟨rfl, rfl⟩, rfl⟩, rfl⟩
    exact ⟨size, hsize, by simp⟩
  · rintro ⟨size, hsize, rfl⟩
    exact ⟨_, a.1, _, rfl, ⟨_, a.2, [], ⟨size, hsize, rfl⟩, ⟨rfl, rfl⟩, rfl⟩, by simp⟩

theorem reads_readMapBegin : Reads readMapBegin fun xs a =>
    ∃ size : Int32, size.toInt = a.2.2 ∧ xs = a.1 :: a.2.1 :: writeI32 size := by
  refine (reads_readByte.bind fun k => reads_readByte.bind fun v => reads_readSize.bind fun n =>
    Reads.pure _).congr fun xs a => ?_
  constructor
  · rintro ⟨_, k, _, rfl, ⟨_, v, _, rfl, ⟨_, n, _, ⟨size, hsize, rfl⟩, ⟨rfl, rfl⟩, rfl⟩, rfl⟩, rfl⟩
    exact ⟨size, hsize, by simp⟩
  · rintro ⟨size, hsize, rfl⟩
    exact ⟨_, a.1, _, rfl, ⟨_, a.2.1, _, rfl, ⟨_, a.2.2, [], ⟨size, hsize, rfl⟩, ⟨rfl, rfl⟩, rfl⟩, rfl⟩,
      by simp⟩

/-- What a loop over the elements takes, with the number of elements in front. -/
theorem elements_iff {L : Str → Prop} {bs : Str} : Elements L bs ↔
    ∃ (size : Int32) (n : ℕ) (ys : Str), size.toInt = n ∧
      (∃ parts : List Str, parts.length = n ∧ (∀ p ∈ parts, L p) ∧ ys = parts.flatten) ∧
      bs = writeI32 size ++ ys := by
  constructor
  · rintro ⟨size, parts, hsize, hparts, rfl⟩
    exact ⟨size, parts.length, _, hsize, ⟨parts, rfl, hparts, rfl⟩, rfl⟩
  · rintro ⟨size, _, _, hsize, ⟨parts, rfl, hparts, rfl⟩, rfl⟩
    exact ⟨size, parts, hsize, hparts, rfl⟩

/-- What is read only to be passed over. -/
theorem Reads.discard {α : Type} {r : Read α} {L : Str → α → Prop} (h : Reads r L) :
    Reads (do
      let _ ← r
      return ()) fun xs (_ : Unit) => ∃ a, L xs a := by
  refine (h.bind fun _ => Reads.pure ()).congr fun xs _ => ?_
  constructor
  · rintro ⟨xs, a, _, hL, ⟨rfl, -⟩, rfl⟩
    exact ⟨a, by rwa [List.append_nil]⟩
  · rintro ⟨a, hL⟩
    exact ⟨xs, a, [], hL, ⟨rfl, rfl⟩, (List.append_nil _).symm⟩

section Skip

variable {d : ℕ} (ih : ∀ t, Reads (skip d t) fun xs _ => Encoding d t xs)

include ih

theorem reads_skipField (t : TType) (_ : Int16) (_ : Unit) : Reads (skip d t) fun xs u =>
    Encoding d t xs ∧ u = () :=
  (ih t).congr fun _ _ => by simp

theorem reads_skipStruct : Reads (readFields (fun t _ _ => skip d t) ()) fun xs _ =>
    ∃ fs, Fields (Encoding d) fs ∧ xs = writeFields fs := by
  refine (reads_readFields (fun _ _ => ()) (reads_skipField ih) ()).congr fun xs _ => ?_
  simp

theorem reads_skipMap : Reads (do
      let (keyType, valType, size) ← readMapBegin
      repeatN (do
        skip d keyType
        skip d valType) size) fun xs (_ : Unit) =>
    ∃ keyType valType elements, xs = keyType :: valType :: elements ∧
      Elements (fun p => ∃ key val, Encoding d keyType key ∧ Encoding d valType val ∧
        p = key ++ val) elements := by
  have hpair : ∀ k v, Reads (do
      skip d k
      skip d v) fun p (_ : Unit) =>
        ∃ key val, Encoding d k key ∧ Encoding d v val ∧ p = key ++ val := fun k v =>
    ((ih k).bind fun _ => ih v).congr fun p _ => by simp
  refine (reads_readMapBegin.bind fun a => (hpair a.1 a.2.1).repeatN a.2.2).congr fun xs _ => ?_
  simp only [elements_iff]
  constructor
  · rintro ⟨_, a, ys, ⟨size, hsize, rfl⟩, hys, rfl⟩
    exact ⟨a.1, a.2.1, _, by simp, size, a.2.2, ys, hsize, hys, rfl⟩
  · rintro ⟨keyType, valType, _, rfl, size, n, ys, hsize, hys, rfl⟩
    exact ⟨_, (keyType, valType, n), ys, ⟨size, hsize, rfl⟩, hys, by simp⟩

theorem reads_skipList : Reads (do
      let (elemType, size) ← readListBegin
      repeatN (skip d elemType) size) fun xs (_ : Unit) =>
    ∃ elemType elements, xs = elemType :: elements ∧ Elements (Encoding d elemType) elements := by
  refine (reads_readListBegin.bind fun a => (ih a.1).repeatN a.2).congr fun xs _ => ?_
  simp only [elements_iff]
  constructor
  · rintro ⟨_, a, ys, ⟨size, hsize, rfl⟩, hys, rfl⟩
    exact ⟨a.1, _, by simp, size, a.2, ys, hsize, hys, rfl⟩
  · rintro ⟨elemType, _, rfl, size, n, ys, hsize, hys, rfl⟩
    exact ⟨_, (elemType, n), ys, ⟨size, hsize, rfl⟩, hys, by simp⟩

end Skip

/-- **`skip` takes the encodings of values, and nothing else.** -/
theorem reads_skip (d : ℕ) (t : TType) : Reads (skip d t) fun xs _ => Encoding d t xs := by
  induction d generalizing t with
  | zero => exact Reads.fail _
  | succ d ih =>
    unfold skip Encoding
    cases width t with
    | some n => exact (Reads.discard (reads_readAll n)).congr fun xs _ => by simp
    | none =>
      refine Reads.ite (fun _ => Reads.discard reads_readString) fun _ => ?_
      refine Reads.ite (fun _ => reads_skipStruct ih) fun _ => ?_
      refine Reads.ite (fun _ => reads_skipMap ih) fun _ => ?_
      refine Reads.ite (fun _ => reads_skipList ih) fun _ => ?_
      exact (Reads.pure ()).congr fun xs _ => by simp

/-! ### Reading before everything has arrived -/

/-- On a part of a stream the reader does what it does on the whole, or waits for more. -/
abbrev Waits {α : Type} (r : Read α) : Prop := Steady .endOfFile r

theorem waits_readAll (n : ℕ) : Waits (readAll n) := Steady.take n

theorem waits_readByte : Waits readByte := (waits_readAll 1).bind (reads_readAll 1) fun _ => .pure _

theorem waits_readI16 : Waits readI16 := (waits_readAll 2).bind (reads_readAll 2) fun _ => .pure _

theorem waits_readI32 : Waits readI32 := (waits_readAll 4).bind (reads_readAll 4) fun _ => .pure _

theorem waits_readStringBody (size : Int32) : Waits (readStringBody size) :=
  .ite (fun _ => .fail _) fun _ => waits_readAll _

theorem waits_readString : Waits readString := waits_readI32.bind reads_readI32 waits_readStringBody

theorem waits_readFieldBegin : Waits readFieldBegin :=
  waits_readByte.bind reads_readByte fun _ => .ite (fun _ => .pure _) fun _ =>
    waits_readI16.bind reads_readI16 fun _ => .pure _

theorem waits_readSize : Waits readSize :=
  waits_readI32.bind reads_readI32 fun _ => .ite (fun _ => .fail _) fun _ => .pure _

theorem waits_readListBegin : Waits readListBegin :=
  waits_readByte.bind reads_readByte fun _ => waits_readSize.bind reads_readSize fun _ => .pure _

theorem waits_readMapBegin : Waits readMapBegin :=
  waits_readByte.bind reads_readByte fun _ => waits_readByte.bind reads_readByte fun _ =>
    waits_readSize.bind reads_readSize fun _ => .pure _

theorem waits_readFields {σ : Type} {field : TType → Int16 → σ → Read σ} {E : TType → Str → Prop}
    (assign : Field → σ → σ)
    (h : ∀ t id s, Reads (field t id s) fun xs s' => E t xs ∧ s' = assign ⟨t, id, xs⟩ s)
    (hfield : ∀ t id s, Waits (field t id s)) (s : σ) : Waits (readFields field s) := by
  refine Steady.loop (reads_pass h) (fun s => ?_) s
  refine waits_readFieldBegin.bind reads_readFieldBegin fun a => .ite (fun _ => .pure _) fun _ => ?_
  exact (hfield a.1 a.2 s).bind (h a.1 a.2 s) fun _ => .pure _

theorem waits_skip (d : ℕ) (t : TType) : Waits (skip d t) := by
  induction d generalizing t with
  | zero => exact .fail _
  | succ d ih =>
    unfold skip
    cases width t with
    | some n => exact (waits_readAll n).bind (reads_readAll n) fun _ => .pure _
    | none =>
      refine .ite (fun _ => waits_readString.bind reads_readString fun _ => .pure _) fun _ => ?_
      refine .ite (fun _ => ?_) fun _ => ?_
      · exact waits_readFields (fun _ _ => ()) (reads_skipField (reads_skip d)) (fun t _ _ => ih t) ()
      · refine .ite (fun _ => ?_) fun _ => .ite (fun _ => ?_) fun _ => .pure _
        · refine waits_readMapBegin.bind reads_readMapBegin fun a => ?_
          exact Steady.repeatN ((reads_skip d a.1).bind fun _ => reads_skip d a.2.1)
            ((ih a.1).bind (reads_skip d a.1) fun _ => ih a.2.1) a.2.2
        · refine waits_readListBegin.bind reads_readListBegin fun a => ?_
          exact Steady.repeatN (reads_skip d a.1) (ih a.1) a.2

end Tutorial
end MongoUtils
