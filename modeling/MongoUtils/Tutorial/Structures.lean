import MongoUtils.Library.Fallible
import MongoUtils.Tutorial.BinaryProtocol

/-!
# Structures on the wire

The `read` and `write` of a structure, as the Thrift compiler generates them for `tutorial.thrift` and
`shared.thrift` (`tutorial/gen-cpp`): `read` is a loop over the fields with a `switch` over their
numbers, in which a field of another number or of another type is passed over.

* `Member`: a case of the `switch`, with what it takes and what it does;
* `readStruct`: the `read` of a structure with these members. It takes every list of fields, in any
  order, and what it returns is what the members do with them one after the other
  (`reads_readStruct`);
* `Work`, `InvalidOperation`, `SharedStruct`, `TApplicationException`: the structures;
* `Work.read_exact`: what is written is read again, and what is read from any other fields.
-/

namespace MongoUtils
namespace Tutorial

open Decoding

/-- A case of the `switch` in a `read`: the number and the type of the field, and how it is read into
the structure when `d` values may be read in each other. A field with the encoding `xs` does
`assign d xs` to the structure. -/
structure Member (σ : Type) where
  id : Int16
  type : TType
  read : ℕ → σ → Read σ
  assign : ℕ → Str → σ → σ
  level : ℕ
  reads : ∀ d s, level ≤ d → Reads (read d s) fun xs s' => Encoding d type xs ∧ s' = assign d xs s
  waits : ∀ d s, level ≤ d → Waits (read d s)

section Members

variable {σ τ : Type} {d : ℕ} {xs : Str}

theorem encoding_i32 (hd : 1 ≤ d) : Encoding d TType.i32 xs ↔ xs.length = 4 := by
  obtain ⟨d, rfl⟩ := Nat.exists_eq_add_of_le' hd
  rfl

theorem encoding_string (hd : 1 ≤ d) :
    Encoding d TType.string xs ↔ ∃ s, writeString s = .ok xs := by
  obtain ⟨d, rfl⟩ := Nat.exists_eq_add_of_le' hd
  rfl

theorem encoding_struct : Encoding (d + 1) TType.struct xs ↔
    ∃ fs, Fields (Encoding d) fs ∧ xs = writeFields fs := Iff.rfl

/-- The string that an encoding stands for. -/
def stringOf (xs : Str) : Str := xs.drop 4

theorem stringOf_eq {s : Str} (h : writeString s = .ok xs) : stringOf xs = s := by
  obtain ⟨size, -, rfl⟩ := writeString_eq_ok.1 h
  rfl

/-- `xfer += iprot->readI32(this->..)`, with the flag of the field. -/
def Member.i32 (id : Int16) (set : Int32 → σ → σ) : Member σ where
  id := id
  type := TType.i32
  read _ s := do
    let v ← readI32
    return set v s
  assign _ xs s := set (i32Of xs) s
  level := 1
  reads d s hd := by
    refine (reads_readI32.bind fun v => Reads.pure _).congr fun xs s' => ?_
    rw [encoding_i32 hd]
    constructor
    · rintro ⟨_, v, _, rfl, ⟨rfl, rfl⟩, rfl⟩
      exact ⟨rfl, by rw [List.append_nil, i32Of_writeI32]⟩
    · rintro ⟨hlen, rfl⟩
      exact ⟨xs, i32Of xs, [], eq_writeI32 hlen, ⟨rfl, rfl⟩, (List.append_nil _).symm⟩
  waits _ _ _ := waits_readI32.bind reads_readI32 fun _ => .pure _

/-- `xfer += iprot->readString(this->..)`, with the flag of the field. -/
def Member.string (id : Int16) (set : Str → σ → σ) : Member σ where
  id := id
  type := TType.string
  read _ s := do
    let v ← readString
    return set v s
  assign _ xs s := set (stringOf xs) s
  level := 1
  reads d s hd := by
    refine (reads_readString.bind fun v => Reads.pure _).congr fun xs s' => ?_
    rw [encoding_string hd]
    constructor
    · rintro ⟨_, v, _, hv, ⟨rfl, rfl⟩, rfl⟩
      rw [List.append_nil, stringOf_eq hv]
      exact ⟨⟨v, hv⟩, rfl⟩
    · rintro ⟨⟨v, hv⟩, rfl⟩
      exact ⟨xs, v, [], hv, ⟨rfl, by rw [stringOf_eq hv]⟩, (List.append_nil _).symm⟩
  waits _ _ _ := waits_readString.bind reads_readString fun _ => .pure _

/-- The `switch` of a `read`. -/
def switch (members : List (Member σ)) (d : ℕ) (t : TType) (id : Int16) (s : σ) : Read σ :=
  match members.find? (fun m => m.id = id) with
  | some m =>
      if t = m.type then m.read d s
      else do
        skip d t
        return s
  | none => do
      skip d t
      return s

/-- What a field does to the structure. -/
def assign (members : List (Member σ)) (d : ℕ) (f : Field) (s : σ) : σ :=
  match members.find? (fun m => m.id = f.id) with
  | some m => if f.type = m.type then m.assign d f.bytes s else s
  | none => s

/-- The `read` of a structure. -/
def readStruct (members : List (Member σ)) : ℕ → σ → Read σ
  | 0, _ => fail .depthLimit
  | d + 1, s => readFields (switch members d) s

theorem reads_skip_return (d : ℕ) (t : TType) (s : σ) :
    Reads (do
      skip d t
      return s) fun xs s' => Encoding d t xs ∧ s' = s := by
  refine ((reads_skip d t).bind fun _ => Reads.pure s).congr fun xs s' => ?_
  constructor
  · rintro ⟨xs, _, _, hE, ⟨rfl, rfl⟩, rfl⟩
    rw [List.append_nil]
    exact ⟨hE, rfl⟩
  · rintro ⟨hE, rfl⟩
    exact ⟨xs, (), [], hE, ⟨rfl, rfl⟩, (List.append_nil _).symm⟩

theorem reads_switch {members : List (Member σ)} (h : ∀ m ∈ members, m.level ≤ d) (t : TType)
    (id : Int16) (s : σ) : Reads (switch members d t id s) fun xs s' =>
      Encoding d t xs ∧ s' = assign members d ⟨t, id, xs⟩ s := by
  cases hm : members.find? (fun m => m.id = id) with
  | none => simpa only [switch, assign, hm] using reads_skip_return d t s
  | some m =>
    have hlevel := h m (List.mem_of_find?_eq_some hm)
    simp only [switch, assign, hm]
    by_cases ht : t = m.type
    · subst ht
      simpa only [if_pos] using m.reads d s hlevel
    · simpa only [if_neg ht] using reads_skip_return d t s

/-- **What the `read` of a structure takes and returns**: fields in any order, any of them several times
or not at all, and fields of other numbers and types, whose values are passed over. -/
theorem reads_readStruct {members : List (Member σ)} (h : ∀ m ∈ members, m.level ≤ d) (s : σ) :
    Reads (readStruct members (d + 1) s) fun xs s' =>
      ∃ fs, Fields (Encoding d) fs ∧ xs = writeFields fs ∧
        s' = fs.foldl (fun s f => assign members d f s) s :=
  reads_readFields (assign members d) (reads_switch h) s

theorem waits_switch {members : List (Member σ)} (h : ∀ m ∈ members, m.level ≤ d) (t : TType)
    (id : Int16) (s : σ) : Waits (switch members d t id s) := by
  have hskip : Waits (do
      skip d t
      return s) := (waits_skip d t).bind (reads_skip d t) fun _ => .pure _
  unfold switch
  cases hm : members.find? (fun m => m.id = id) with
  | none => exact hskip
  | some m =>
    exact .ite (fun _ => m.waits d s (h m (List.mem_of_find?_eq_some hm))) fun _ => hskip

theorem waits_readStruct {members : List (Member σ)} (h : ∀ m ∈ members, m.level ≤ d) (s : σ) :
    Waits (readStruct members (d + 1) s) :=
  waits_readFields (assign members d) (reads_switch h) (waits_switch h) s

/-- `xfer += this->...read(iprot)`, with the flag of the field: the structure that is already there is
read into. -/
def Member.struct (id : Int16) (members : List (Member τ)) (l : ℕ)
    (hl : ∀ m ∈ members, m.level ≤ l) (get : σ → τ) (set : τ → σ → σ) : Member σ where
  id := id
  type := TType.struct
  read d s := do
    let v ← readStruct members d (get s)
    return set v s
  assign d xs s :=
    match readStruct members d (get s) xs with
    | .ok (v, _) => set v s
    | .error _ => s
  level := l + 1
  reads d s hd := by
    obtain ⟨d, rfl⟩ := Nat.exists_eq_add_of_le' (show 1 ≤ d by omega)
    have hread := reads_readStruct (fun m hm => (hl m hm).trans (Nat.le_of_succ_le_succ hd)) (get s)
    refine (hread.bind fun v => Reads.pure _).congr fun xs s' => ?_
    constructor
    · rintro ⟨xs, v, _, hv, ⟨rfl, rfl⟩, rfl⟩
      have hrun := hread.eq_ok_nil hv
      rw [List.append_nil]
      obtain ⟨fs, hfs, rfl, -⟩ := hv
      exact ⟨⟨fs, hfs, rfl⟩, by rw [hrun]⟩
    · rintro ⟨⟨fs, hfs, rfl⟩, rfl⟩
      have hv : ∃ gs, Fields (Encoding d) gs ∧ writeFields fs = writeFields gs ∧
          fs.foldl (fun s f => Tutorial.assign members d f s) (get s) =
            gs.foldl (fun s f => Tutorial.assign members d f s) (get s) := ⟨fs, hfs, rfl, rfl⟩
      have hrun := hread.eq_ok_nil hv
      exact ⟨_, _, [], hv, ⟨rfl, by rw [hrun]⟩, (List.append_nil _).symm⟩
  waits d s hd := by
    obtain ⟨d, rfl⟩ := Nat.exists_eq_add_of_le' (show 1 ≤ d by omega)
    have hlevel := fun m hm => (hl m hm).trans (Nat.le_of_succ_le_succ hd)
    exact (waits_readStruct hlevel (get s)).bind (reads_readStruct hlevel (get s)) fun _ => .pure _

end Members

/-! ### Writing -/

/-- What `writeFieldBegin(name, fieldType, fieldId)`, the writer of the value and `writeFieldEnd()` put
on the transport. -/
abbrev WrittenField : Type := Except ProtocolError Field

def Field.i32 (id : Int16) (i : Int32) : WrittenField := .ok ⟨TType.i32, id, writeI32 i⟩

def Field.string (id : Int16) (s : Str) : WrittenField := do
  let bytes ← writeString s
  return ⟨TType.string, id, bytes⟩

def Field.struct (id : Int16) (write : Written) : WrittenField := do
  let bytes ← write
  return ⟨TType.struct, id, bytes⟩

/-- The fields one after the other, and `writeFieldStop()`. -/
def writeStruct : List WrittenField → Written
  | [] => .ok writeFieldStop
  | f :: fs => do
      let f ← f
      let rest ← writeStruct fs
      return f.write ++ rest

section Writing

variable {σ τ : Type} {d l : ℕ} {id : Int16} {xs : Str} {members : List (Member σ)}

theorem writeStruct_eq_ok {fs : List WrittenField} : writeStruct fs = .ok xs ↔
    ∃ gs : List Field, fs = gs.map Except.ok ∧ xs = writeFields gs := by
  induction fs generalizing xs with
  | nil =>
    constructor
    · intro h
      exact ⟨[], rfl, (Except.ok.inj h).symm⟩
    · rintro ⟨gs, hgs, rfl⟩
      obtain rfl := List.map_eq_nil_iff.1 hgs.symm
      rfl
  | cons f fs ih =>
    simp only [writeStruct, Fallible.bind_eq_ok, ih]
    constructor
    · rintro ⟨g, rfl, _, ⟨gs, rfl, rfl⟩, h⟩
      refine ⟨g :: gs, rfl, (Except.ok.inj h).symm.trans ?_⟩
      rw [writeFields, writeFields, List.flatMap_cons, List.append_assoc]
    · rintro ⟨_ | ⟨g, gs⟩, hgs, rfl⟩
      · cases hgs
      · obtain ⟨rfl, rfl⟩ := List.cons.inj hgs
        refine ⟨g, rfl, _, ⟨gs, rfl, rfl⟩, ?_⟩
        rw [writeFields, writeFields, List.flatMap_cons, List.append_assoc]
        rfl

theorem exists_writeString {s : Str} (h : s.length < 2 ^ 31) : ∃ xs, writeString s = .ok xs :=
  ⟨_, if_pos h⟩

theorem exists_writeStruct {fs : List WrittenField} (h : ∀ f ∈ fs, ∃ g, f = .ok g) :
    ∃ xs, writeStruct fs = .ok xs := by
  induction fs with
  | nil => exact ⟨_, rfl⟩
  | cons f fs ih =>
    obtain ⟨⟨g, rfl⟩, hfs⟩ := List.forall_mem_cons.1 h
    obtain ⟨xs, hxs⟩ := ih hfs
    exact ⟨g.write ++ xs, by rw [writeStruct, hxs]; rfl⟩

/-- If the field is written, it is one that is read again and does `step`. -/
def Does (members : List (Member σ)) (d : ℕ) (f : WrittenField) (step : σ → σ) : Prop :=
  ∀ g, f = .ok g → (g.type ≠ TType.stop ∧ Encoding d g.type g.bytes) ∧
    ∀ s, assign members d g s = step s

theorem assign_of_find? {m : Member σ} {g : Field} (hm : members.find? (fun m => m.id = g.id) = some m)
    (ht : g.type = m.type) (s : σ) : assign members d g s = m.assign d g.bytes s := by
  simp only [assign, hm, if_pos ht]

theorem does_i32 {set : Int32 → σ → σ} {i : Int32} (hd : 1 ≤ d)
    (hm : members.find? (fun m => m.id = id) = some (Member.i32 id set)) :
    Does members d (Field.i32 id i) (set i) := by
  rintro _ ⟨rfl⟩
  refine ⟨⟨show TType.i32 ≠ TType.stop by decide, (encoding_i32 hd).2 rfl⟩, fun s => ?_⟩
  rw [assign_of_find? hm rfl]
  show set (i32Of (writeI32 i)) s = set i s
  rw [i32Of_writeI32]

theorem does_string {set : Str → σ → σ} {v : Str} (hd : 1 ≤ d)
    (hm : members.find? (fun m => m.id = id) = some (Member.string id set)) :
    Does members d (Field.string id v) (set v) := by
  intro g hg
  obtain ⟨bytes, hv, hg⟩ := Fallible.bind_eq_ok.1 hg
  obtain rfl := Except.ok.inj hg
  refine ⟨⟨show TType.string ≠ TType.stop by decide, (encoding_string hd).2 ⟨v, hv⟩⟩, fun s => ?_⟩
  rw [assign_of_find? hm rfl]
  show set (stringOf bytes) s = set v s
  rw [stringOf_eq hv]

/-- What the fields of a written structure do. -/
theorem fields_of_does {gs : List Field} {steps : List (σ → σ)}
    (h : List.Forall₂ (Does members d) (gs.map .ok) steps) : Fields (Encoding d) gs ∧
      ∀ s, steps.foldl (fun s step => step s) s = gs.foldl (fun s f => assign members d f s) s := by
  induction gs generalizing steps with
  | nil =>
    cases h
    exact ⟨fun _ h => (by cases h), fun _ => rfl⟩
  | cons g gs ih =>
    obtain _ | ⟨hg, h⟩ := h
    obtain ⟨hvalid, hstep⟩ := hg g rfl
    obtain ⟨hgs, hfold⟩ := ih h
    refine ⟨List.forall_mem_cons.2 ⟨hvalid, hgs⟩, fun s => ?_⟩
    rw [List.foldl_cons, List.foldl_cons, hfold, hstep]

/-- **A structure that is written is read again**: its fields do what they do one after the other. -/
theorem readStruct_writeStruct (hlevel : ∀ m ∈ members, m.level ≤ d) {fs : List WrittenField}
    {steps : List (σ → σ)} (hfs : List.Forall₂ (Does members d) fs steps)
    (hxs : writeStruct fs = .ok xs) (s : σ) (rest : Str) :
    readStruct members (d + 1) s (xs ++ rest) =
      .ok (steps.foldl (fun s step => step s) s, rest) := by
  obtain ⟨gs, rfl, rfl⟩ := writeStruct_eq_ok.1 hxs
  obtain ⟨hgs, hfold⟩ := fields_of_does hfs
  exact (reads_readStruct hlevel s).eq_ok ⟨gs, hgs, rfl, hfold s⟩

theorem does_struct {inner : List (Member τ)} {hl : ∀ m ∈ inner, m.level ≤ l} {get : σ → τ}
    {set : τ → σ → σ} (hd : l ≤ d) {fs : List WrittenField} {steps : List (τ → τ)}
    (hfs : List.Forall₂ (Does inner d) fs steps)
    (hm : members.find? (fun m => m.id = id) = some (Member.struct id inner l hl get set)) :
    Does members (d + 1) (Field.struct id (writeStruct fs))
      (fun s => set (steps.foldl (fun s step => step s) (get s)) s) := by
  intro g hg
  obtain ⟨bytes, hbytes, hg⟩ := Fallible.bind_eq_ok.1 hg
  obtain rfl := Except.ok.inj hg
  have hread := fun s => readStruct_writeStruct (fun m hm => (hl m hm).trans hd) hfs hbytes (get s) []
  obtain ⟨gs, rfl, rfl⟩ := writeStruct_eq_ok.1 hbytes
  refine ⟨⟨show TType.struct ≠ TType.stop by decide, encoding_struct.2 ⟨gs, (fields_of_does hfs).1, rfl⟩⟩,
    fun s => ?_⟩
  have h := hread s
  rw [List.append_nil] at h
  rw [assign_of_find? hm rfl]
  simp only [Member.struct, h]

end Writing

/-! ### The structures -/

/-- `enum Operation`; any other number can be read as well. -/
abbrev Operation : Type := Int32

namespace Operation

def add : Operation := 1
def subtract : Operation := 2
def multiply : Operation := 3
def divide : Operation := 4

end Operation

/-- `struct Work`: `comment` is `none` when `__isset.comment` is `false`. -/
structure Work where
  num1 : Int32 := 0
  num2 : Int32 := 0
  op : Operation := 0
  comment : Option Str := none
  deriving DecidableEq

structure InvalidOperation where
  whatOp : Int32 := 0
  why : Str := []
  deriving DecidableEq

structure SharedStruct where
  key : Int32 := 0
  value : Str := []
  deriving DecidableEq

/-- The exception of the protocol itself. -/
structure TApplicationException where
  message : Str := []
  type : Int32 := 0
  deriving DecidableEq

variable {d : ℕ} {xs rest : Str}

namespace Work

def setNum1 (v : Int32) (w : Work) : Work := { w with num1 := v }
def setNum2 (v : Int32) (w : Work) : Work := { w with num2 := v }
def setOp (v : Operation) (w : Work) : Work := { w with op := v }
def setComment (v : Str) (w : Work) : Work := { w with comment := some v }

def members : List (Member Work) :=
  [.i32 1 setNum1, .i32 2 setNum2, .i32 3 setOp, .string 4 setComment]

def read (d : ℕ) (w : Work) : Read Work := readStruct members d w

def fields (w : Work) : List WrittenField :=
  [Field.i32 1 w.num1, Field.i32 2 w.num2, Field.i32 3 w.op] ++
    (w.comment.map (Field.string 4)).toList

def write (w : Work) : Written := writeStruct w.fields

def steps (w : Work) : List (Work → Work) :=
  [setNum1 w.num1, setNum2 w.num2, setOp w.op] ++ (w.comment.map setComment).toList

theorem level_members : ∀ m ∈ members, m.level ≤ 1 := by
  simp [members, Member.i32, Member.string]

theorem does_fields (hd : 1 ≤ d) (w : Work) : List.Forall₂ (Does members d) w.fields w.steps := by
  refine .cons (does_i32 hd rfl) (.cons (does_i32 hd rfl) (.cons (does_i32 hd rfl) ?_))
  cases w.comment with
  | none => exact .nil
  | some v => exact .cons (does_string hd rfl) .nil

theorem foldl_steps (w s : Work) :
    w.steps.foldl (fun s step => step s) s = { w with comment := w.comment.or s.comment } := by
  cases w with
  | mk num1 num2 op comment => cases comment <;> rfl

/-- The fields of number `id` that have the type `t` stand for the last of them. -/
def last (t : TType) (id : Int16) (fs : List Field) : Option Str :=
  ((fs.filter fun f => f.id = id ∧ f.type = t).getLast?).map Field.bytes

theorem last_concat (t : TType) (id : Int16) (fs : List Field) (f : Field) :
    last t id (fs ++ [f]) = if f.id = id ∧ f.type = t then some f.bytes else last t id fs := by
  unfold last
  rw [List.filter_append]
  by_cases hf : f.id = id ∧ f.type = t
  · simp [hf]
  · simp [hf]

/-- The work that stands in these fields: the last field of each number counts, and the fields of other
numbers and types do not. -/
def ofFields (fs : List Field) : Work where
  num1 := (last TType.i32 1 fs).elim 0 i32Of
  num2 := (last TType.i32 2 fs).elim 0 i32Of
  op := (last TType.i32 3 fs).elim 0 i32Of
  comment := (last TType.string 4 fs).map stringOf

/-- The cases of the `switch`. -/
theorem assign_members (d : ℕ) (f : Field) (w : Work) : assign members d f w =
    if f.id = 1 ∧ f.type = TType.i32 then setNum1 (i32Of f.bytes) w
    else if f.id = 2 ∧ f.type = TType.i32 then setNum2 (i32Of f.bytes) w
    else if f.id = 3 ∧ f.type = TType.i32 then setOp (i32Of f.bytes) w
    else if f.id = 4 ∧ f.type = TType.string then setComment (stringOf f.bytes) w
    else w := by
  by_cases h1 : f.id = 1
  · simp [assign, members, Member.i32, h1]
  by_cases h2 : f.id = 2
  · simp [assign, members, Member.i32, h2]
  by_cases h3 : f.id = 3
  · simp [assign, members, Member.i32, h3]
  by_cases h4 : f.id = 4
  · simp [assign, members, Member.i32, Member.string, h4]
  have hne : ∀ i : Int16, f.id ≠ i → decide (i = f.id) = false := fun i hi => by simpa using hi.symm
  simp [assign, members, Member.i32, Member.string, h1, h2, h3, h4, hne]

theorem foldl_assign (d : ℕ) (fs : List Field) :
    fs.foldl (fun w f => assign members d f w) {} = ofFields fs := by
  induction fs using List.reverseRecOn with
  | nil => rfl
  | append_singleton fs f ih =>
    rw [List.foldl_append, List.foldl_cons, List.foldl_nil, ih]
    rw [assign_members]
    simp only [ofFields, last_concat]
    by_cases h1 : f.id = 1
    · by_cases ht : f.type = TType.i32 <;> simp [h1, ht, setNum1]
    by_cases h2 : f.id = 2
    · by_cases ht : f.type = TType.i32 <;> simp [h2, ht, setNum2]
    by_cases h3 : f.id = 3
    · by_cases ht : f.type = TType.i32 <;> simp [h3, ht, setOp]
    by_cases h4 : f.id = 4
    · by_cases ht : f.type = TType.string <;> simp [h4, ht, setComment]
    simp [h1, h2, h3, h4]

/-- **What `Work::read` takes and returns**: every structure, with whatever fields, and the work that
stands in them. -/
theorem read_iff (d : ℕ) (stream rest : Str) (w : Work) :
    read (d + 2) {} stream = .ok (w, rest) ↔
      ∃ fs, Fields (Encoding (d + 1)) fs ∧ stream = writeFields fs ++ rest ∧ w = ofFields fs := by
  have hlevel : ∀ m ∈ members, m.level ≤ d + 1 := fun m hm =>
    (level_members m hm).trans (Nat.le_add_left 1 d)
  refine (reads_readStruct hlevel {} stream w rest).trans ?_
  simp only [foldl_assign]
  constructor
  · rintro ⟨xs, ⟨fs, hfs, rfl, rfl⟩, rfl⟩
    exact ⟨fs, hfs, rfl, rfl⟩
  · rintro ⟨fs, hfs, rfl, rfl⟩
    exact ⟨writeFields fs, ⟨fs, hfs, rfl, rfl⟩, rfl⟩

theorem read_write (hd : 1 ≤ d) {w : Work} (h : w.write = .ok xs) (s : Work) (rest : Str) :
    read (d + 1) s (xs ++ rest) = .ok ({ w with comment := w.comment.or s.comment }, rest) := by
  rw [← foldl_steps]
  exact readStruct_writeStruct (fun m hm => (level_members m hm).trans hd) (does_fields hd w) h s rest

/-- **`Work::read` is the inverse of `Work::write`**, and takes no other streams than structures. -/
theorem read_exact (d : ℕ) (rest : Str) :
    (∀ w xs, write w = .ok xs → read (d + 2) {} (xs ++ rest) = .ok (w, rest)) ∧
      ∀ stream w, read (d + 2) {} stream = .ok (w, rest) ↔
        ∃ fs, Fields (Encoding (d + 1)) fs ∧ stream = writeFields fs ++ rest ∧ w = ofFields fs := by
  refine ⟨fun w xs h => ?_, fun stream w => read_iff d stream rest w⟩
  have hread := read_write (Nat.le_add_left 1 d) h {} rest
  rwa [Option.or_none] at hread

end Work

namespace InvalidOperation

def setWhatOp (v : Int32) (x : InvalidOperation) : InvalidOperation := { x with whatOp := v }
def setWhy (v : Str) (x : InvalidOperation) : InvalidOperation := { x with why := v }

def members : List (Member InvalidOperation) := [.i32 1 setWhatOp, .string 2 setWhy]

def read (d : ℕ) (x : InvalidOperation) : Read InvalidOperation := readStruct members d x

def fields (x : InvalidOperation) : List WrittenField :=
  [Field.i32 1 x.whatOp, Field.string 2 x.why]

def write (x : InvalidOperation) : Written := writeStruct x.fields

theorem level_members : ∀ m ∈ members, m.level ≤ 1 := by
  simp [members, Member.i32, Member.string]

theorem does_fields (hd : 1 ≤ d) (x : InvalidOperation) : List.Forall₂ (Does members d) x.fields
    [setWhatOp x.whatOp, setWhy x.why] :=
  .cons (does_i32 hd rfl) (.cons (does_string hd rfl) .nil)

end InvalidOperation

namespace SharedStruct

def setKey (v : Int32) (ss : SharedStruct) : SharedStruct := { ss with key := v }
def setValue (v : Str) (ss : SharedStruct) : SharedStruct := { ss with value := v }

def members : List (Member SharedStruct) := [.i32 1 setKey, .string 2 setValue]

def read (d : ℕ) (ss : SharedStruct) : Read SharedStruct := readStruct members d ss

def fields (ss : SharedStruct) : List WrittenField :=
  [Field.i32 1 ss.key, Field.string 2 ss.value]

def write (ss : SharedStruct) : Written := writeStruct ss.fields

theorem level_members : ∀ m ∈ members, m.level ≤ 1 := by
  simp [members, Member.i32, Member.string]

theorem does_fields (hd : 1 ≤ d) (ss : SharedStruct) : List.Forall₂ (Does members d) ss.fields
    [setKey ss.key, setValue ss.value] :=
  .cons (does_i32 hd rfl) (.cons (does_string hd rfl) .nil)

end SharedStruct

namespace TApplicationException

/-- The types that are used: `UNKNOWN_METHOD` and `MISSING_RESULT`. -/
def unknownMethod : Int32 := 1

def missingResult : Int32 := 5

def setMessage (v : Str) (x : TApplicationException) : TApplicationException :=
  { x with message := v }

def setType (v : Int32) (x : TApplicationException) : TApplicationException := { x with type := v }

def members : List (Member TApplicationException) := [.string 1 setMessage, .i32 2 setType]

/-- There is no `TInputRecursionTracker` in this `read`. -/
def read (x : TApplicationException) : Read TApplicationException :=
  readFields (switch members recursionLimit) x

def fields (x : TApplicationException) : List WrittenField :=
  [Field.string 1 x.message, Field.i32 2 x.type]

def write (x : TApplicationException) : Written := writeStruct x.fields

theorem level_members : ∀ m ∈ members, m.level ≤ recursionLimit := by
  simp [members, Member.i32, Member.string, recursionLimit]

theorem reads_read (x : TApplicationException) : Reads (read x) fun xs x' =>
    ∃ fs, Fields (Encoding recursionLimit) fs ∧ xs = writeFields fs ∧
      x' = fs.foldl (fun x f => assign members recursionLimit f x) x :=
  reads_readStruct level_members x

theorem waits_read (x : TApplicationException) : Waits (read x) := waits_readStruct level_members x

end TApplicationException

end Tutorial
end MongoUtils
