import MongoUtils.IpLib.CountryCodes
import MongoUtils.IpLib.Module
import MongoUtils.Library.Objects

/-!
# Python programs that use the module

A program calls the functions of the module and the methods of its objects in any order. Each call
goes to one table. The only thing that one call can do to a later call to another table is to leave
a file open, so that the later one finds its file closed when the limit of the process is reached.

* `IP2Location.replay`: the calls of one object, with the replies; `history_iff_replay` says that the
  object is then the one after this history;
* `World.step_eq`: every call is a call of one object, with the file that it opens;
* `World.run_iff_replay`: a program runs to its end exactly if the calls of every table, by
  themselves, do;
* `getCountry_of_lastLoad`: the lookups after the last call that fills or clears a table.
-/

namespace MongoUtils
namespace IpLib

open Fallible

/-! ### One object -/

namespace IP2Location

variable {self self' : IP2Location} {calls : List Call} {rs : List Reply}

/-- The calls of one object, one after the other, with the replies, if all of them return. -/
def replay : IP2Location → List Call → Option (IP2Location × List Reply) :=
  Objects.runOne fun c self => (c.reply self).toOption

theorem replay_nil : replay self [] = some (self', rs) ↔ self = self' ∧ rs = [] := by
  simp [replay, Objects.runOne, eq_comm]

theorem replay_cons {c : Call} : replay self (c :: calls) = some (self', rs) ↔
    ∃ t r rs', c.reply self = .ok (t, r) ∧ replay t calls = some (self', rs') ∧ rs = r :: rs' := by
  simp only [replay, Objects.runOne_cons, toOption_eq_some]

theorem replay_append {calls' : List Call} : replay self (calls ++ calls') = some (self', rs) ↔
    ∃ t rs₁ rs₂, replay self calls = some (t, rs₁) ∧ replay t calls' = some (self', rs₂) ∧
      rs = rs₁ ++ rs₂ :=
  Objects.runOne_append

end IP2Location

/-! ### The tables of a program -/

variable {N : Type} {files : Str → Option Str} {limit : ℕ}

theorem length_openedCalls (n : ℕ) (calls : List (Call N)) :
    (openedCalls files limit n calls).length = calls.length := by
  induction calls generalizing n with
  | nil => rfl
  | cons c calls ih => simp [openedCalls, ih]

theorem leavesOpen_cons (c : Call N) (calls : List (Call N)) :
    leavesOpen (c :: calls) = c.leaves + leavesOpen calls := by simp [leavesOpen]

theorem mem_openedCalls {p : Option N × IP2Location.Call} {n : ℕ} {calls : List (Call N)}
    (hp : p ∈ openedCalls files limit n calls) :
    ∃ c ∈ calls, ∃ m, p = (c.target, c.opened files limit m) := by
  induction calls generalizing n with
  | nil => cases hp
  | cons c calls ih =>
    rcases List.mem_cons.1 hp with rfl | hp
    · exact ⟨c, by simp, n, rfl⟩
    · obtain ⟨d, hd, m, rfl⟩ := ih hp
      exact ⟨d, List.mem_cons_of_mem c hd, m, rfl⟩

theorem openedCalls_append (n : ℕ) (calls calls' : List (Call N)) :
    openedCalls files limit n (calls ++ calls') =
      openedCalls files limit n calls ++ openedCalls files limit (n + leavesOpen calls) calls' := by
  induction calls generalizing n with
  | nil => rfl
  | cons c calls ih =>
    rw [List.cons_append, openedCalls, ih, openedCalls, leavesOpen_cons, List.cons_append,
      Nat.add_assoc]

namespace World

/-- The static object and the others, alike. -/
def object (w : World N) : Option N → IP2Location
  | none => ⟨w.ipLib⟩
  | some i => w.objects i

@[ext] theorem ext {w w' : World N} (hobject : w.object = w'.object)
    (hleft : w.leftOpen = w'.leftOpen) : w = w' := by
  obtain ⟨lib, objects, left⟩ := w
  obtain ⟨lib', objects', left'⟩ := w'
  have hlib : lib = lib' := congrArg IP2Location.ipLib (congrFun hobject none)
  have hobjects : objects = objects' := funext fun i => congrFun hobject (some i)
  obtain rfl : left = left' := hleft
  rw [hlib, hobjects]

variable [DecidableEq N]

/-- The object `h` is now this one, and `n` more files are open. -/
def put (w : World N) (h : Option N) (self : IP2Location) (n : ℕ) : World N :=
  match h with
  | none => { w with ipLib := self.ipLib, leftOpen := w.leftOpen + n }
  | some i => { w.set i self with leftOpen := w.leftOpen + n }

@[simp] theorem leftOpen_put (w : World N) (h : Option N) (self : IP2Location) (n : ℕ) :
    (w.put h self n).leftOpen = w.leftOpen + n := by
  cases h <;> rfl

@[simp] theorem object_put (w : World N) (h : Option N) (self : IP2Location) (n : ℕ) :
    (w.put h self n).object = Function.update w.object h self := by
  funext k
  cases h with
  | none => cases k <;> simp [put, object]
  | some i =>
    cases k with
    | none => simp [put, object, set]
    | some j => by_cases hij : j = i <;> simp [put, object, set, hij]

/-- **Every call is a call of one object**, with the file that it opens. -/
theorem step_eq (w : World N) (c : Call N) :
    w.step files limit c = ((c.opened files limit w.leftOpen).reply (w.object c.target)).map
      fun p => (w.put c.target p.1 c.leaves, p.2) := by
  -- Both sides make the same call, which may end the program.
  cases c with
  | loadDict dictPath =>
    simp only [step, loadDictFunction, Call.opened, IP2Location.Call.reply, IP2Location.init,
      Call.target, object]
    cases w.ipLib.loadDict (openedFile files limit w.leftOpen dictPath) <;> rfl
  | getCountry ip =>
    simp only [step, getCountryFunction, Call.opened, IP2Location.Call.reply,
      IP2Location.getCountry, Call.target, object]
    cases w.ipLib.getCountry (cut ip) [] <;> rfl
  | cleanup => rfl
  | init i dictPath callback =>
    cases callback with
    | none =>
      simp only [step, Call.opened, IP2Location.Call.reply, Call.target, object, Option.map_none]
      cases (w.objects i).init (openedFile files limit w.leftOpen dictPath) none <;> rfl
    | some callback =>
      simp only [step, Call.opened, IP2Location.Call.reply, Call.target, object, Option.map_some]
      cases (w.objects i).init (openedFile files limit w.leftOpen dictPath)
        (some callback.toCallback) <;> rfl
  | objectGetCountry i ip =>
    simp only [step, Call.opened, IP2Location.Call.reply, Call.target, object]
    cases (w.objects i).getCountry ip <;> rfl
  | objectCleanup i => rfl

variable {w w' : World N} {calls : List (Call N)} {rs : List Reply}

/-- A program runs as its calls do on their objects, each with the file that it opens. -/
theorem run_iff_objects : w.run files limit calls = .ok (w', rs) ↔
    Objects.run Prod.fst (fun c self => (c.2.reply self).toOption) w.object
        (openedCalls files limit w.leftOpen calls) = some (w'.object, rs) ∧
      w'.leftOpen = w.leftOpen + leavesOpen calls := by
  induction calls generalizing w rs with
  | nil =>
    simp only [run, openedCalls, Objects.run, leavesOpen, List.map_nil, List.sum_nil, Nat.add_zero,
      Except.ok.injEq, Option.some.injEq, Prod.mk.injEq]
    constructor
    · rintro ⟨rfl, rfl⟩
      exact ⟨⟨rfl, rfl⟩, rfl⟩
    · rintro ⟨⟨hobject, rfl⟩, hleft⟩
      exact ⟨ext hobject hleft.symm, rfl⟩
  | cons c calls ih =>
    simp only [run, step_eq, openedCalls, Objects.run_cons, bind_eq_ok, map_eq_ok, Prod.exists,
      pure_eq_ok, Except.ok.injEq, Prod.mk.injEq, toOption_eq_some,
      leavesOpen_cons, ← Nat.add_assoc]
    constructor
    · rintro ⟨_, _, ⟨self, r, hreply, rfl, rfl⟩, _, rs', hrun, rfl, rfl⟩
      obtain ⟨hobjects, hleft⟩ := ih.1 hrun
      rw [object_put, leftOpen_put] at hobjects
      rw [leftOpen_put] at hleft
      exact ⟨⟨self, r, rs', hreply, hobjects, rfl⟩, hleft⟩
    · rintro ⟨⟨self, r, rs', hreply, hobjects, rfl⟩, hleft⟩
      refine ⟨_, r, ⟨self, r, hreply, rfl, rfl⟩, w', rs', ih.2 ?_, rfl, rfl⟩
      rw [object_put, leftOpen_put]
      exact ⟨hobjects, hleft⟩

/-- The calls of a program that go to one object, each with the file that it opens. -/
def ownCalls (files : Str → Option Str) (limit : ℕ) (h : Option N) (calls : List (Call N)) :
    List IP2Location.Call :=
  ((openedCalls files limit 0 calls).filter fun c => c.1 = h).map Prod.snd

theorem own_openedCalls (h : Option N) (n : ℕ) (calls : List (Call N)) (rs : List Reply) :
    Objects.own Prod.fst h (openedCalls files limit n calls) rs =
      Objects.own Call.target h calls rs := by
  induction calls generalizing n rs with
  | nil => rfl
  | cons c calls ih =>
    cases rs with
    | nil => rfl
    | cons r rs => simp only [openedCalls, Objects.own, ih]

/-- A program runs to its end exactly if the calls of every object, by themselves, do. -/
theorem run_iff_replay : (start : World N).run files limit calls = .ok (w, rs) ↔
    rs.length = calls.length ∧ w.leftOpen = leavesOpen calls ∧
      ∀ h, IP2Location.new.replay (ownCalls files limit h calls) =
        some (w.object h, Objects.own Call.target h calls rs) := by
  have hstart : (start : World N).object = fun _ => IP2Location.new := by
    funext h
    cases h <;> rfl
  rw [run_iff_objects, Objects.run_eq_some_iff, length_openedCalls, hstart, and_assoc,
    show (start : World N).leftOpen = 0 from rfl, Nat.zero_add, and_comm (a := ∀ _, _)]
  simp only [own_openedCalls, ownCalls, IP2Location.replay, Objects.runOne_map]

end World

/-! ### The last load -/

/-- `get_country` on the table `h`. -/
def Call.lookup (h : Option N) (ip : Str) : Call N :=
  match h with
  | none => .getCountry ip
  | some i => .objectGetCountry i ip

/-- The call is a lookup. -/
def Call.IsLookup : Call N → Prop
  | .getCountry _ => True
  | .objectGetCountry _ _ => True
  | _ => False

/-- The call loads the file of this path without a callback. -/
def Call.Loads (dictPath : Str) : Call N → Prop
  | .loadDict path => path = dictPath
  | .init _ path none => path = dictPath
  | _ => False

/-- The call is `cleanup`. -/
def Call.IsCleanup : Call N → Prop
  | .cleanup => True
  | .objectCleanup _ => True
  | _ => False

theorem Call.target_lookup (h : Option N) (ip : Str) : (Call.lookup h ip).target = h := by
  cases h <;> rfl

theorem Call.opened_lookup (h : Option N) (ip : Str) (n : ℕ) :
    (Call.lookup h ip).opened files limit n = .getCountry ip := by
  cases h <;> rfl

theorem Call.IsLookup.exists_opened {c : Call N} (h : c.IsLookup) (n : ℕ) :
    ∃ ip, c.opened files limit n = .getCountry ip := by
  cases c with
  | getCountry ip => exact ⟨ip, rfl⟩
  | objectGetCountry i ip => exact ⟨ip, rfl⟩
  | _ => exact h.elim

theorem Call.Loads.opened_eq {c : Call N} {dictPath : Str} (h : c.Loads dictPath) (n : ℕ) :
    c.opened files limit n = .init (openedFile files limit n dictPath) none := by
  cases c with
  | loadDict path => exact h ▸ rfl
  | init i path callback =>
    cases callback with
    | none => exact h ▸ rfl
    | some callback => exact h.elim
  | _ => exact h.elim

theorem Call.IsCleanup.opened_eq {c : Call N} (h : c.IsCleanup) (n : ℕ) :
    c.opened files limit n = .cleanup := by
  cases c with
  | cleanup => rfl
  | objectCleanup i => rfl
  | _ => exact h.elim

namespace IP2Location

variable {self self' : IP2Location} {rs : List Reply}

/-- Lookups change nothing. -/
theorem replay_lookups {calls : List Call} (hcalls : ∀ c ∈ calls, ∃ ip, c = .getCountry ip)
    (h : self.replay calls = some (self', rs)) : self' = self := by
  induction calls generalizing rs with
  | nil => exact (replay_nil.1 h).1.symm
  | cons c calls ih =>
    rw [List.forall_mem_cons] at hcalls
    obtain ⟨⟨ip, rfl⟩, hcalls⟩ := hcalls
    obtain ⟨t, r, rs', hreply, hrest, -⟩ := replay_cons.1 h
    obtain ⟨⟨t', country⟩, hget, hpair⟩ := bind_eq_ok.1 hreply
    cases hpair
    obtain rfl := getCountry_eq_ok hget
    exact ih hcalls hrest

end IP2Location

section LastLoad

variable [DecidableEq N] {w : World N} (before after : List (Call N)) {c : Call N}
  {rs : List Reply}

/-- The object that a call goes to is at the end as the call has left it, if the later calls to it are
lookups. -/
theorem World.object_of_lookups
    (hrun : World.start.run files limit (before ++ c :: after) = .ok (w, rs))
    (hafter : ∀ d ∈ after, d.target = c.target → d.IsLookup) :
    ∃ self r, (c.opened files limit (leavesOpen before)).reply self = .ok (w.object c.target, r) := by
  have hown := (World.run_iff_replay.1 hrun).2.2 c.target
  rw [World.ownCalls, openedCalls_append, List.filter_append, openedCalls,
    List.filter_cons_of_pos (by simp), List.map_append, List.map_cons, Nat.zero_add,
    IP2Location.replay_append] at hown
  obtain ⟨self, rs₁, rs₂, -, hrest, -⟩ := hown
  obtain ⟨self', r, rs₃, hreply, hlater, -⟩ := IP2Location.replay_cons.1 hrest
  -- Of the calls to this object, those behind `c` are lookups.
  have hlookups : ∀ d ∈ ((openedCalls files limit (leavesOpen before + c.leaves) after).filter
      fun p => p.1 = c.target).map Prod.snd, ∃ ip, d = .getCountry ip := by
    intro d hd
    obtain ⟨p, hp, rfl⟩ := List.mem_map.1 hd
    obtain ⟨hmem, htarget⟩ := List.mem_filter.1 hp
    obtain ⟨e, he, m, rfl⟩ := mem_openedCalls hmem
    exact (hafter e he (by simpa using htarget)).exists_opened m
  exact ⟨self, r, IP2Location.replay_lookups hlookups hlater ▸ hreply⟩

/-- A lookup that is answered leaves the program as it is. -/
theorem World.step_lookup {h : Option N} {ip : Str} {country : Option Str}
    (hget : (w.object h).getCountry ip = .ok (w.object h, country)) :
    w.step files limit (.lookup h ip) = .ok (w, .country country) := by
  have hput : w.put h (w.object h) (Call.lookup h ip).leaves = w := by
    refine World.ext (by simp) ?_
    cases h <;> simp [Call.lookup, Call.leaves]
  rw [World.step_eq, Call.opened_lookup, Call.target_lookup, IP2Location.Call.reply, hget]
  simp [Except.map, hput]

/-- An empty table answers `None`. -/
theorem IP2Location.getCountry_empty {self : IP2Location} (h : self.ipLib.mIpTable.items = [])
    (ip : Str) : self.getCountry ip = .ok (self, none) := by
  rw [IP2Location.getCountry, IPLib.getCountry_empty h]
  rfl

/-- What a load without a callback leaves behind. -/
theorem IP2Location.reply_load {self self' : IP2Location} {file : Option Str} {r : Reply}
    (h : IP2Location.Call.reply self (.init file none) = .ok (self', r)) :
    ∃ code, self.ipLib.loadDict file = .ok (self'.ipLib, code) := by
  obtain ⟨⟨self₁, code₁⟩, hinit, hpair⟩ := bind_eq_ok.1 h
  obtain ⟨⟨lib, code⟩, hload, hlib⟩ := bind_eq_ok.1 hinit
  cases hlib
  cases hpair
  exact ⟨code, hload⟩

/-- **Lookups follow the last load.** Whatever a program has done before, let a call load a dictionary
in order without a callback, through the module or for an object, and let the later calls to the same
table be lookups; the later calls to other tables may be any. If the callback initialisations before
it are fewer than the files that the process can have open, then every lookup from the first line's
start on finds the country of the line that contains the address, or `None` if there is none. If they
are not, the call has loaded nothing and every lookup finds `None`, as after `cleanup`. -/
theorem getCountry_of_lastLoad
    (hrun : World.start.run files limit (before ++ c :: after) = .ok (w, rs))
    (hafter : ∀ d ∈ after, d.target = c.target → d.IsLookup) :
    (∀ dictPath ls newline, c.Loads dictPath →
      files (cut dictPath) = some (dictText ls newline) → ls ≠ [] → InOrder ls →
      leavesOpen before < limit →
      ∀ q : Quad, (∀ first ∈ ls.head?, first.start.address ≤ q.address) →
        (∀ l ∈ ls, l.Contains q.address →
          w.step files limit (.lookup c.target q.text) = .ok (w, .country (some l.country))) ∧
        ((∀ l ∈ ls, ¬ l.Contains q.address) →
          w.step files limit (.lookup c.target q.text) = .ok (w, .country none))) ∧
    (∀ dictPath, c.Loads dictPath → limit ≤ leavesOpen before →
      ∀ ip, w.step files limit (.lookup c.target ip) = .ok (w, .country none)) ∧
    (c.IsCleanup → ∀ ip, w.step files limit (.lookup c.target ip) = .ok (w, .country none)) := by
  obtain ⟨self, r, hreply⟩ := World.object_of_lookups before after hrun hafter
  refine ⟨?_, ?_, ?_⟩
  · intro dictPath ls newline hloads hfile hne hord hroom q hfirst
    rw [hloads.opened_eq, openedFile, if_pos hroom, hfile] at hreply
    obtain ⟨code, hload⟩ := IP2Location.reply_load hreply
    obtain ⟨lib, hload', hitems⟩ := loadDict_dictText self.ipLib hne hord newline
    obtain ⟨rfl, -⟩ := Prod.mk.inj (Except.ok.inj (hload'.symm.trans hload))
    obtain ⟨hfound, hnone⟩ :=
      getCountry_of_lines (entries_of_items hitems) hord.ascending q hfirst
    refine ⟨fun l hl hcontains => World.step_lookup ?_, fun h => World.step_lookup (hnone h)⟩
    have hplain := l.fields_plain l.country (by simp [DictLine.fields])
    rw [hfound l hl hcontains, show l.entry.val = l.country from rfl, shown, if_neg hplain.1,
      cut_of_notMem hplain.2.1]
  · intro dictPath hloads hfull ip
    -- No file has opened, so the table was cleared and nothing was loaded.
    rw [hloads.opened_eq, openedFile, if_neg (by omega)] at hreply
    obtain ⟨code, hload⟩ := IP2Location.reply_load hreply
    obtain ⟨hitems, -⟩ := loadDict_entries.1 hload
    exact World.step_lookup (IP2Location.getCountry_empty (List.forall₂_nil_left_iff.1 hitems) ip)
  · intro hcleanup ip
    rw [hcleanup.opened_eq] at hreply
    have hself := (Prod.mk.inj (Except.ok.inj hreply)).1
    exact World.step_lookup (IP2Location.getCountry_empty (hself ▸ rfl) ip)

end LastLoad

/-- The dictionary of `lineAA` and `lineBB` under the name `dict`. -/
def oneFile (path : Str) : Option Str :=
  if path = ascii "dict" then some (dictText [lineAA, lineBB] false) else none

/-- A callback for which every line is the same range. -/
def constantCallback : TupleCallback := fun _ =>
  .ok (ascii "1.0.0.0", ascii "1.0.0.255", ascii "CC")

/-- A program that initialises an object with this callback, loads the dictionary through the module
and clears the object. -/
def loadTwice : List (Call Unit) :=
  [.init () (ascii "dict") (some constantCallback), .loadDict (ascii "dict"), .objectCleanup ()]

/-- A process that can have two files open answers from the dictionary after this program; one that
can have one file open answers `None`. -/
theorem getCountry_of_lastLoad_twice :
    (∃ w rs, World.start.run oneFile 2 loadTwice = .ok (w, rs) ∧
      w.step oneFile 2 (.getCountry (ascii "1.0.0.12")) =
        .ok (w, .country (some (ascii "BB")))) ∧
    ∃ w rs, World.start.run oneFile 1 loadTwice = .ok (w, rs) ∧
      w.step oneFile 1 (.getCountry (ascii "1.0.0.12")) = .ok (w, .country none) := by
  obtain ⟨⟨w, rs⟩, hrun⟩ : ∃ p, World.start.run oneFile 2 loadTwice = .ok p :=
    exists_ok_of_toBool (by decide +kernel)
  obtain ⟨⟨w', rs'⟩, hrun'⟩ : ∃ p, World.start.run oneFile 1 loadTwice = .ok p :=
    exists_ok_of_toBool (by decide +kernel)
  have hother : ∀ d ∈ [(Call.objectCleanup () : Call Unit)],
      d.target = (Call.loadDict (ascii "dict") : Call Unit).target → d.IsLookup := by
    simp [Call.target]
  refine ⟨⟨w, rs, hrun, ?_⟩, w', rs', hrun', ?_⟩
  · have hlast := (getCountry_of_lastLoad [.init () (ascii "dict") (some constantCallback)]
      [.objectCleanup ()] hrun hother).1 (ascii "dict") [lineAA, lineBB] false rfl (by decide +kernel)
      (by simp) (List.isChain_pair.2 (by decide)) (by decide) (.ofFin 1 0 0 12) (by decide)
    exact hlast.1 lineBB (by simp) (by constructor <;> decide)
  · exact (getCountry_of_lastLoad [.init () (ascii "dict") (some constantCallback)]
      [.objectCleanup ()] hrun' hother).2.1 (ascii "dict") rfl (by decide) (ascii "1.0.0.12")

end IpLib
end MongoUtils
