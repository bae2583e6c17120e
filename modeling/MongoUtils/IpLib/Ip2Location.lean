import MongoUtils.IpLib.IpTable

/-!
# `ip_lib/ip_lib.cpp`: `IP2Location`

The Python type around an `IPLib`. `IP2Location_init` loads the dictionary in one of two ways:
without a callback it calls `LoadDict`; with one it reads the file with `fgets` into a buffer of
1024 bytes, hands every buffer to the callback and pushes the tuple that it returns.

* `fgetsFrom`, `pieces`: what `fgets` delivers. A line with more than 1023 bytes comes in several
  pieces;
* `IP2Location.init`: the two loaders; `tupleRecord` is what the second one pushes for a buffer,
  and `init_callback_eq_ok` says that it appends these entries to the table, unless the callback is
  called while an error is set (`Undisturbed`);
* `IP2Location.getCountry`, `IP2Location.cleanup`: the other two methods;
* `splitCallback`: a callback that does to a line what `LoadDict` does to it.
-/

namespace MongoUtils
namespace IpLib

/-- `sizeof(buf)` -/
def bufSize : ℕ := 1024

/-- The successive contents of `buf` in `while (fgets(buf, sizeof(buf), f))`; `buf` holds the bytes
read so far. A call ends with a newline, with `bufSize - 1` bytes or at the end of the file. -/
def fgetsFrom : Str → Str → List Str
  | buf, [] => if buf = [] then [] else [buf]
  | buf, c :: rest =>
      if c = 10 ∨ buf.length + 2 = bufSize then (buf ++ [c]) :: fgetsFrom [] rest
      else fgetsFrom (buf ++ [c]) rest

/-- What `fgets` delivers for a file, or for a line of it, with this content. -/
def pieces (content : Str) : List Str := fgetsFrom [] content

/-- A Python callback: from the line to a tuple of three strings, or to something else (`none`). It
may run into what its own code runs into. -/
abbrev Callback : Type := Str → Except Fault (Option (Str × Str × Str))

/-- The type `IP2Location`. -/
structure IP2Location where
  ipLib : IPLib
  deriving DecidableEq

namespace IP2Location

/-- `IP2Location_new` -/
def new : IP2Location := ⟨IPLib.new⟩

/-- The body of the loop of `IP2Location_init`, with the library and whether an error is set.
Strings go to Python and back as C strings. For what is not a tuple of three, `PyArg_ParseTuple`
sets an error and nothing is pushed; the error is still set when the callback is called with the
next buffer. -/
def pushTuple (callback : Callback) : IPLib × Bool → Str → Except Fault (IPLib × Bool)
  | (_, true), _ => .error .pendingError
  | (ipLib, false), buf => do
      match ← callback (cut buf) with
      | some (start, stop, country) => do
          let ipLib ← ipLib.pushItem (cut start) (cut stop) (cut country)
          return (ipLib, false)
      | none => return (ipLib, true)

/-- `IP2Location_init(self, dict_path, callback)`, for the file that the path names. -/
def init (self : IP2Location) (dictPath : Option Str) (callback : Option Callback) :
    Except Fault (IP2Location × Int32) :=
  match callback with
  | some callback =>
      match dictPath with
      | none => .error .nullPointer  -- `fopen` has returned `NULL`, and `fgets` gets it
      | some content => do
          let (ipLib, _) ← (pieces content).foldlM (pushTuple callback) (self.ipLib, false)
          return (⟨ipLib⟩, 0)
  | none => do
      let (ipLib, _) ← self.ipLib.loadDict dictPath
      return (⟨ipLib⟩, 0)

/-- `IP2Location_get_country(self, ip)`: the country as a C string, or `None` if it is empty. -/
def getCountry (self : IP2Location) (ip : Str) : Except Fault (IP2Location × Option Str) := do
  let (ipLib, _, country) ← self.ipLib.getCountry (cut ip) []
  return (⟨ipLib⟩, if country = [] then none else some (cut country))

/-- `IP2Location_cleanup(self)` -/
def cleanup (self : IP2Location) : IP2Location := ⟨self.ipLib.cleanUp⟩

/-! ### What the loader with a callback pushes -/

open Fallible

variable {callback : Callback} {buf : Str}

/-- The entries that the loop of `IP2Location_init` pushes for a buffer. -/
def tupleRecord (callback : Callback) (buf : Str) : Except Fault (List IPItem) := do
  match ← callback (cut buf) with
  | some (start, stop, country) => do
      let s ← ip2int (cut start)
      let e ← ip2int (cut stop)
      return [⟨narrow s, narrow e, cut country⟩]
  | none => return []

theorem tupleRecord_eq_ok {items : List IPItem} :
    tupleRecord callback buf = .ok items ↔
      (∃ start stop country s e, callback (cut buf) = .ok (some (start, stop, country)) ∧
        ip2int (cut start) = .ok s ∧ ip2int (cut stop) = .ok e ∧
        items = [⟨narrow s, narrow e, cut country⟩]) ∨
      callback (cut buf) = .ok none ∧ items = [] := by
  rw [tupleRecord, bind_eq_ok]
  constructor
  · rintro ⟨_ | ⟨start, stop, country⟩, hf, h⟩
    · exact Or.inr ⟨hf, (Except.ok.inj h).symm⟩
    · simp only [bind_eq_ok, pure_eq_ok, Except.ok.injEq] at h
      obtain ⟨s, hs, e, he, rfl⟩ := h
      exact Or.inl ⟨start, stop, country, s, e, hf, hs, he, rfl⟩
  · rintro (⟨start, stop, country, s, e, hf, hs, he, rfl⟩ | ⟨hf, rfl⟩)
    · exact ⟨_, hf, by simp [hs, he]⟩
    · exact ⟨_, hf, rfl⟩

/-- The callback is not called while an error is set: only for the last buffer does it return
something other than a tuple. -/
def Undisturbed (callback : Callback) (bufs : List Str) : Prop :=
  ∀ buf ∈ bufs.dropLast, callback (cut buf) ≠ .ok none

theorem undisturbed_cons {bufs : List Str} :
    Undisturbed callback (buf :: bufs) ↔
      (callback (cut buf) = .ok none → bufs = []) ∧ Undisturbed callback bufs := by
  cases bufs with
  | nil => simp [Undisturbed]
  | cons b bufs => simp [Undisturbed, List.dropLast_cons_of_ne_nil]

/-- With an error set, the loop does not get further. -/
theorem pushTuple_pending {lib : IPLib} {bufs : List Str} {s : IPLib × Bool} :
    bufs.foldlM (pushTuple callback) (lib, true) = .ok s ↔ bufs = [] ∧ s = (lib, true) := by
  cases bufs with
  | nil => simp [eq_comm]
  | cons buf bufs => simp [pushTuple]

/-- One pass through the loop appends the entries of the buffer. -/
theorem pushTuple_eq_ok_iff {lib lib' : IPLib} {pending : Bool} :
    pushTuple callback (lib, false) buf = .ok (lib', pending) ↔
      (∃ items, tupleRecord callback buf = .ok items ∧
        lib'.mIpTable.items = lib.mIpTable.items ++ items) ∧
      (pending = true ↔ callback (cut buf) = .ok none) := by
  rw [pushTuple, bind_eq_ok]
  constructor
  · rintro ⟨_ | ⟨start, stop, country⟩, hf, h⟩
    · cases h
      exact ⟨⟨[], tupleRecord_eq_ok.2 (Or.inr ⟨hf, rfl⟩), by simp⟩, by simp [hf]⟩
    · obtain ⟨lib₁, hpush, h⟩ := bind_eq_ok.1 h
      cases h
      obtain ⟨s, e, hs, he, hpush⟩ := IPLib.pushItem_eq_ok.1 hpush
      exact ⟨⟨_, tupleRecord_eq_ok.2 (Or.inl ⟨start, stop, country, s, e, hf, hs, he, rfl⟩),
        IPTable.pushBack_eq_ok.1 hpush⟩, by simp [hf]⟩
  · rintro ⟨⟨items, hrec, hitems⟩, hpending⟩
    rcases tupleRecord_eq_ok.1 hrec with ⟨start, stop, country, s, e, hf, hs, he, rfl⟩ | ⟨hf, rfl⟩
    · obtain rfl : pending = false := by simpa [hf] using hpending
      have hpush := IPLib.pushItem_eq_ok.2 ⟨s, e, hs, he, IPTable.pushBack_eq_ok.2 hitems⟩
      exact ⟨_, hf, bind_eq_ok.2 ⟨lib', hpush, rfl⟩⟩
    · obtain rfl : pending = true := hpending.2 hf
      rw [List.append_nil] at hitems
      obtain rfl : lib' = lib := IPLib.ext (IPTable.ext hitems)
      exact ⟨_, hf, rfl⟩

/-- The loop appends the entries of the buffers. -/
theorem foldlM_pushTuple {lib lib' : IPLib} {bufs : List Str} :
    (∃ pending, bufs.foldlM (pushTuple callback) (lib, false) = .ok (lib', pending)) ↔
      Undisturbed callback bufs ∧ ∃ items, gather (tupleRecord callback) bufs = .ok items ∧
        lib'.mIpTable.items = lib.mIpTable.items ++ items := by
  induction bufs generalizing lib with
  | nil =>
    have hlib : lib'.mIpTable.items = lib.mIpTable.items ↔ lib = lib' :=
      ⟨fun h => IPLib.ext (IPTable.ext h.symm), fun h => h ▸ rfl⟩
    simp [Undisturbed, hlib]
  | cons buf bufs ih =>
    rw [undisturbed_cons]
    simp only [List.foldlM_cons, bind_eq_ok, gather_cons_eq_ok]
    constructor
    · rintro ⟨pending, ⟨lib₁, pending₁⟩, hstep, hrest⟩
      obtain ⟨⟨ys, hys, hlib₁⟩, hpending⟩ := pushTuple_eq_ok_iff.1 hstep
      cases pending₁ with
      | true =>
        obtain ⟨rfl, hs⟩ := pushTuple_pending.1 hrest
        cases hs
        exact ⟨⟨fun _ => rfl, by simp [Undisturbed]⟩, ys, ⟨ys, [], hys, rfl, by simp⟩, hlib₁⟩
      | false =>
        obtain ⟨hund, zs, hzs, hlib'⟩ := ih.1 ⟨pending, hrest⟩
        refine ⟨⟨fun hnone => ?_, hund⟩, ys ++ zs, ⟨ys, zs, hys, hzs, rfl⟩, ?_⟩
        · cases hpending.2 hnone
        · rw [hlib', hlib₁, List.append_assoc]
    · rintro ⟨⟨hlast, hund⟩, _, ⟨ys, zs, hys, hzs, rfl⟩, hlib'⟩
      rw [← List.append_assoc] at hlib'
      obtain ⟨t, ht⟩ := IPTable.exists_prefix hlib'
      by_cases hnone : callback (cut buf) = .ok none
      · -- Nothing is left to be done, so it does not matter that an error is set.
        obtain rfl := hlast hnone
        cases hzs
        rw [List.append_nil] at hlib'
        exact ⟨true, (lib', true), pushTuple_eq_ok_iff.2 ⟨⟨ys, hys, hlib'⟩, by simp [hnone]⟩, rfl⟩
      · have hrest : lib'.mIpTable.items = (⟨t⟩ : IPLib).mIpTable.items ++ zs := hlib'.trans (ht ▸ rfl)
        obtain ⟨pending, hrest⟩ := ih.2 ⟨hund, zs, hzs, hrest⟩
        exact ⟨pending, (⟨t⟩, false),
          pushTuple_eq_ok_iff.2 ⟨⟨ys, hys, ht⟩, by simp [hnone]⟩, hrest⟩

/-- **The loader with a callback appends to the table** the entries of what `fgets` delivers. -/
theorem init_callback_eq_ok {self self' : IP2Location} {content : Str} {code : Int32} :
    self.init (some content) (some callback) = .ok (self', code) ↔
      Undisturbed callback (pieces content) ∧
      (∃ items, gather (tupleRecord callback) (pieces content) = .ok items ∧
        self'.ipLib.mIpTable.items = self.ipLib.mIpTable.items ++ items) ∧ code = 0 := by
  rw [← and_assoc, ← foldlM_pushTuple]
  simp only [init, bind_eq_ok, pure_eq_ok, Except.ok.injEq, Prod.mk.injEq, Prod.exists]
  constructor
  · rintro ⟨lib, pending, hlib, rfl, rfl⟩
    exact ⟨⟨pending, hlib⟩, rfl⟩
  · rintro ⟨⟨pending, hlib⟩, rfl⟩
    exact ⟨_, pending, hlib, rfl, rfl⟩

/-- If the callback returns a tuple for everything that `fgets` delivers, each gives one entry. -/
theorem init_callback_of_forall₂ {self self' : IP2Location} {content : Str} {items : List IPItem}
    (h : List.Forall₂ (fun buf item => tupleRecord callback buf = .ok [item]) (pieces content)
      items)
    (htable : self'.ipLib.mIpTable.items = self.ipLib.mIpTable.items ++ items) :
    self.init (some content) (some callback) = .ok (self', 0) := by
  refine init_callback_eq_ok.2 ⟨fun buf hbuf hnone => ?_, ⟨items, gather_of_forall₂ h, htable⟩, rfl⟩
  obtain ⟨item, hitem⟩ := exists_forall₂_iff.1 ⟨items, h⟩ buf (List.mem_of_mem_dropLast hbuf)
  rw [tupleRecord, hnone] at hitem
  cases hitem

end IP2Location

/-- The line without its newline. -/
def chomp (line : Str) : Str := if line.getLast? = some 10 then line.dropLast else line

/-- The first three fields of a text, if it has so many. -/
def threeFields (text : Str) : Except Fault (Option (Str × Str × Str)) := do
  match ← splitString text [] 124 with
  | f0 :: f1 :: f2 :: _ => return some (f0, f1, f2)
  | _ => return none

/-- A callback that strips one newline, splits the line on `|` and returns the first three fields;
with fewer fields it returns something that is not a tuple. -/
def splitCallback : Callback := fun line => threeFields (chomp line)

theorem threeFields_eq_some {text f0 f1 f2 : Str} :
    threeFields text = .ok (some (f0, f1, f2)) ↔
      ∃ rest, splitString text [] 124 = .ok (f0 :: f1 :: f2 :: rest) := by
  rw [threeFields, Fallible.bind_eq_ok]
  constructor
  · rintro ⟨fields, hs, h⟩
    match fields, hs, h with
    | g0 :: g1 :: g2 :: rest, hs, h =>
      cases h
      exact ⟨rest, hs⟩
    | [], _, h => cases h
    | [_], _, h => cases h
    | [_, _], _, h => cases h
  · rintro ⟨rest, hs⟩
    exact ⟨_, hs, rfl⟩

/-- The fields go to Python and back unchanged. -/
theorem cut_of_threeFields {text f0 f1 f2 : Str} (h0 : 0 ∉ text)
    (h : threeFields text = .ok (some (f0, f1, f2))) : cut f0 = f0 ∧ cut f1 = f1 ∧ cut f2 = f2 := by
  obtain ⟨rest, hs⟩ := threeFields_eq_some.1 h
  have hcut : ∀ f ∈ f0 :: f1 :: f2 :: rest, cut f = f := fun f hf =>
    cut_of_notMem (zero_notMem_of_splitString (by decide) h0 hs hf)
  exact ⟨hcut f0 (by simp), hcut f1 (by simp), hcut f2 (by simp)⟩

end IpLib
end MongoUtils
