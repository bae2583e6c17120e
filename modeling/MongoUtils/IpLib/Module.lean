import MongoUtils.IpLib.History

/-!
# `ip_lib/ip_lib.cpp`: the extension module

A Python program that uses the module: the functions `load_dict`, `get_country` and `cleanup`, which
share the static object `ip_lib`, and objects of the type `IP2Location`, each of which has an `IPLib`
of its own. The model begins where the arguments have passed the checks of their types, so paths and
addresses are strings, and a callback returns a tuple of three strings for every line.

What all calls share is the process, which can have only so many files open. `IP2Location_init` opens
the file for a callback with `fopen` and never closes it; `LoadDict` closes what it opens.

* `loadDictFunction`, `getCountryFunction`, `cleanupFunction`: the functions of the module;
* `World`, `Call`, `World.step`, `World.run`: the static object, the objects and the files left
  open, and what a program does with them;
* `Call.opened`: a call as a call of one object, with the file that it gets to open.
-/

namespace MongoUtils
namespace IpLib

/-- What a call returns: `True` or nothing, or the country or `None` of a lookup. -/
inductive Reply
  | done
  | country (found : Option Str)
  deriving DecidableEq

/-- A call of an object, with its reply. -/
def IP2Location.Call.reply (self : IP2Location) :
    IP2Location.Call → Except Fault (IP2Location × Reply)
  | init dictPath callback => do
      let (self, _) ← self.init dictPath callback
      return (self, .done)
  | getCountry ip => do
      let (self, country) ← self.getCountry ip
      return (self, .country country)
  | cleanup => .ok (self.cleanup, .done)

/-- A callback that returns a tuple of three strings. -/
abbrev TupleCallback : Type := Str → Except Fault (Str × Str × Str)

/-- Such a callback as one that might return something else. -/
def TupleCallback.toCallback (callback : TupleCallback) : Callback := fun line =>
  (callback line).map some

/-! ### The functions of the module -/

/-- `load_dict_function`, with the static object `ip_lib`, for the file that the path names. -/
def loadDictFunction (ipLib : IPLib) (dictPath : Option Str) : Except Fault IPLib := do
  let (ipLib, _) ← ipLib.loadDict dictPath
  return ipLib

/-- `get_country_function`, with the static object `ip_lib`. -/
def getCountryFunction (ipLib : IPLib) (ip : Str) : Except Fault (IPLib × Option Str) := do
  let (ipLib, _, country) ← ipLib.getCountry (cut ip) []
  return (ipLib, if country = [] then none else some (cut country))

/-- `cleanup_function`, with the static object `ip_lib`. -/
def cleanupFunction (ipLib : IPLib) : IPLib := ipLib.cleanUp

/-! ### Python programs -/

/-- The static object `ip_lib`, the objects of the type `IP2Location` under the names that the program
has for them, and how many files `IP2Location_init` has left open. -/
structure World (N : Type) where
  ipLib : IPLib
  objects : N → IP2Location
  leftOpen : ℕ

/-- What a program does with the module. -/
inductive Call (N : Type)
  | loadDict (dictPath : Str)
  | getCountry (ip : Str)
  | cleanup
  | init (i : N) (dictPath : Str) (callback : Option TupleCallback)
  | objectGetCountry (i : N) (ip : Str)
  | objectCleanup (i : N)

variable {N : Type} (files : Str → Option Str) (limit : ℕ)

/-- What opens when the path is opened while this many files have been left open: nothing if the file
cannot be read, or if the process has reached its limit. -/
def openedFile (leftOpen : ℕ) (dictPath : Str) : Option Str :=
  if leftOpen < limit then files (cut dictPath) else none

namespace World

/-- The module when it has been imported, and objects that `IP2Location_new` has made. -/
def start : World N := ⟨IPLib.new, fun _ => IP2Location.new, 0⟩

variable [DecidableEq N]

/-- The object `i` is now this one. -/
def set (w : World N) (i : N) (self : IP2Location) : World N :=
  { w with objects := Function.update w.objects i self }

/-- A call. `IP2Location(..)` is `IP2Location_new` and then `init`. -/
def step (w : World N) : Call N → Except Fault (World N × Reply)
  | .loadDict dictPath => do
      let ipLib ← loadDictFunction w.ipLib (openedFile files limit w.leftOpen dictPath)
      return ({ w with ipLib := ipLib }, .done)
  | .getCountry ip => do
      let (ipLib, country) ← getCountryFunction w.ipLib ip
      return ({ w with ipLib := ipLib }, .country country)
  | .cleanup => .ok ({ w with ipLib := cleanupFunction w.ipLib }, .done)
  | .init i dictPath none => do
      let (self, _) ← (w.objects i).init (openedFile files limit w.leftOpen dictPath) none
      return (w.set i self, .done)
  | .init i dictPath (some callback) => do
      let (self, _) ← (w.objects i).init (openedFile files limit w.leftOpen dictPath)
        (some callback.toCallback)
      -- There is no `fclose`.
      return ({ w.set i self with leftOpen := w.leftOpen + 1 }, .done)
  | .objectGetCountry i ip => do
      let (self, country) ← (w.objects i).getCountry ip
      return (w.set i self, .country country)
  | .objectCleanup i => .ok (w.set i (w.objects i).cleanup, .done)

/-- A program, call by call, and the replies. -/
def run (w : World N) : List (Call N) → Except Fault (World N × List Reply)
  | [] => .ok (w, [])
  | c :: calls => do
      let (w, reply) ← w.step files limit c
      let (w, replies) ← run w calls
      return (w, reply :: replies)

end World

/-! ### Calls one by one -/

namespace Call

/-- The table that a call goes to: the one of the static object is `none`. -/
def target : Call N → Option N
  | loadDict _ => none
  | getCountry _ => none
  | cleanup => none
  | init i _ _ => some i
  | objectGetCountry i _ => some i
  | objectCleanup i => some i

/-- How many files a call leaves open. -/
def leaves : Call N → ℕ
  | init _ _ (some _) => 1
  | _ => 0

/-- The call as a call of one object, with the file that it opens. -/
def opened (leftOpen : ℕ) : Call N → IP2Location.Call
  | loadDict dictPath => .init (openedFile files limit leftOpen dictPath) none
  | getCountry ip => .getCountry ip
  | cleanup => .cleanup
  | init _ dictPath callback =>
      .init (openedFile files limit leftOpen dictPath) (callback.map TupleCallback.toCallback)
  | objectGetCountry _ ip => .getCountry ip
  | objectCleanup _ => .cleanup

end Call

/-- The calls of a program, each with its table and with the file that it opens. -/
def openedCalls : ℕ → List (Call N) → List (Option N × IP2Location.Call)
  | _, [] => []
  | leftOpen, c :: calls =>
      (c.target, c.opened files limit leftOpen) :: openedCalls (leftOpen + c.leaves) calls

/-- How many files a program leaves open. -/
def leavesOpen (calls : List (Call N)) : ℕ := (calls.map Call.leaves).sum

end IpLib
end MongoUtils
