import MongoUtils.IpLib.SplitString
import MongoUtils.Library.Assignments
import MongoUtils.Tools.Pipeline

/-!
# `tools/mongodump2.cpp`: `main`

The program from its options to its exit status. `main` connects, asks whether the server is a
`mongos`, counts the documents, starts one thread of `dump_mongod` for every shard, or a single one,
and the writer, and waits for them. What the driver and the servers answer is `Env`.

* `VariablesMap`, `address`: the options. `main` begins with what `boost::program_options` makes of
  the command line, which is nothing if it throws;
* `Env`, `Cursor`, `Thrown`: the answers, with the exceptions. The `catch` of `main` is for a
  `DBException` of its own thread; any other exception ends the process, and so does the null pointer
  that `query` returns when the connection breaks;
* `isMongos`, `uris`, `prepare`: the `try` block up to the threads, and `Plan`: what it starts;
* `Process`, `Process.Step`, `main`: the process;
* `Starts`, `Dies`, `main_cases`: how far `main` gets. For a `mongos` there is a thread for every name
  in `config.shards`, for the address in the last document with the name.
-/

namespace MongoUtils
namespace Tools

open Base

/-- `ss << n` -/
def decimal (n : ℤ) : Str := ascii (toString n)

/-! ### Options -/

/-- The options, as `po::notify` leaves them, with the defaults of `desc.add_options()`. -/
structure VariablesMap where
  help : Bool := false
  host : Str := ascii "localhost"
  port : Int32 := 27017
  db : Option Str := none
  collection : Option Str := none
  out : Str := ascii "dump.bson"

/-- The options ask for a dump of `db.collection`. -/
structure VariablesMap.Names (vm : VariablesMap) (db collection : Str) : Prop where
  help_eq : vm.help = false
  db_eq : vm.db = some db
  collection_eq : vm.collection = some collection

/-- `mongodb`: a host that contains a colon comes with its port. -/
def address (host : Str) (port : Int32) : Str :=
  if 58 ∈ host then host else host ++ ascii ":" ++ decimal port.toInt

/-! ### The driver -/

/-- `mongo::DBClientCursor`: the documents that it delivers, and the text of the exception after
them, if there is one. -/
structure Cursor where
  documents : List BSONObj
  fails : Option Str

/-- The answers on a `mongo::DBClientConnection`, or the text of the `DBException` that is thrown. The
only command is `serverStatus`, and `query` returns a null pointer for `none`. -/
structure Connection where
  connect : Str → Except Str Unit
  runCommand : Except Str (Bool × BSONObj)
  count : Str → Except Str UInt64
  query : Str → Except Str (Option Cursor)

/-- What the program gets from outside: the functions of `BSONObj`, the text of `desc`, the connection
of `main` and those of the threads in the order in which they are started, what `main` counts in
`config.shards` at the end, and the paths that a `std::fstream` can open. A stream that is open takes
what is written to it. -/
structure Env where
  isValid : BSONObj → Bool
  getStringField : BSONObj → String → Str
  toString : BSONObj → Str
  jsonString : BSONObj → Except Str Str
  desc : Str
  connection : Connection
  threads : ℕ → Connection
  shardsCount : Except Str UInt64
  opens : Str → Bool

/-- What leaves a statement: a `mongo::DBException` with its `what()`, a `const char*`, or the signal
for a null pointer that is dereferenced. -/
inductive Thrown
  | dbException (what : Str)
  | text (message : Str)
  | nullPointer

inductive Stream
  | cout
  | cerr
  deriving DecidableEq

/-- The lines that `main` has printed. -/
abbrev Console : Type := List (Stream × Str)

/-- The statements of the `try` block: from the lines printed so far to a value or an exception, and
the lines printed then. -/
def Try (α : Type) : Type := Console → Except Thrown α × Console

instance : Monad Try where
  pure a console := (.ok a, console)
  bind x f console :=
    match x console with
    | (.ok a, console) => f a console
    | (.error e, console) => (.error e, console)

def throw {α : Type} (e : Thrown) : Try α := fun console => (.error e, console)

def print (stream : Stream) (text : Str) : Try Unit := fun console =>
  (.ok (), console ++ [(stream, text)])

/-- A call of the driver. -/
def call {α : Type} : Except Str α → Try α
  | .ok a => pure a
  | .error what => throw (.dbException what)

/-! ### The `try` block -/

/-- `isMongos(mongo)` -/
def isMongos (env : Env) (mongo : Connection) : Try Bool := do
  let (ok, ret) ← call mongo.runCommand
  if ok then
    return env.getStringField ret "process" = ascii "mongos"
  else do
    print .cerr (ascii "Failed to run serverStatus: " ++ env.toString ret)
    throw (.text (ascii "Failed to run serverStatus"))

/-- `*cursor`, for the pointer that `query` has returned. -/
def dereference : Option Cursor → Try Cursor
  | some cursor => pure cursor
  | none => throw .nullPointer

/-- What a thread of `dump_mongod` puts into `q`, and what leaves it then. -/
structure Source where
  documents : List BSONObj
  thrown : Option Thrown

/-- `dump_mongod(mongo_uri, ns)`, as far as it reads the server. -/
def dumpMongod (mongo : Connection) (mongoUri ns : Str) : Source :=
  match mongo.connect mongoUri, mongo.query ns with
  | .ok _, .ok (some cursor) => ⟨cursor.documents, cursor.fails.map .dbException⟩
  | .ok _, .ok none => ⟨[], some .nullPointer⟩
  | .error what, _ => ⟨[], some (.dbException what)⟩
  | .ok _, .error what => ⟨[], some (.dbException what)⟩

/-- The name and the address of a shard, from its document in `config.shards`. -/
def shardEntry (env : Env) (d : BSONObj) : Str × Str :=
  (env.getStringField d "_id", env.getStringField d "host")

/-- The body of the loop over `config.shards`. -/
def readShard (env : Env) (shards : Std.TreeMap Str Str compare) (d : BSONObj) :
    Try (Std.TreeMap Str Str compare) := do
  let json ← call (env.jsonString d)
  print .cout (ascii "Dealing: " ++ json)
  return shards.insert (shardEntry env d).1 (shardEntry env d).2

/-- `ns`: the collection with its database. -/
def namespaceOf (db collection : Str) : Str := db ++ ascii "." ++ collection

/-- What the threads are started with: `total_count` and `out`, and `ns` and the `mongo_uri` of every
thread of `dump_mongod`. -/
structure Plan where
  totalCount : Int32
  out : Str
  ns : Str
  uris : List Str

/-- The two branches of the `try` block, up to the threads: the addresses that they connect to. -/
def uris (env : Env) (mongodb : Str) (isMongos : Bool) : Try (List Str) :=
  if isMongos then do
    print .cout (ascii "mongos")
    let cursor ← call (env.connection.query (ascii "config.shards"))
    let cursor ← dereference cursor
    let shards ← cursor.documents.foldlM (readShard env) ∅
    call (cursor.fails.elim (.ok ()) .error)
    shards.toList.forM fun it => print .cout (ascii "dump " ++ it.2)
    return shards.toList.map Prod.snd
  else do
    print .cout (ascii "mongod")
    return [mongodb]

/-- The `try` block up to the threads. -/
def prepare (env : Env) (mongodb db collection out : Str) : Try Plan := do
  call (env.connection.connect mongodb)
  print .cout (ascii "mongodb connected ok")
  let isMongos ← isMongos env env.connection
  let ns := namespaceOf db collection
  let count ← call (env.connection.count ns)
  let uris ← uris env mongodb isMongos
  return ⟨totalCount count, out, ns, uris⟩

/-! ### The process -/

namespace Plan

/-- What the thread number `i` gets from its server. -/
def source (env : Env) (p : Plan) (i : Fin p.uris.length) : Source :=
  dumpMongod (env.threads i) (p.uris.get i) p.ns

def cursors (env : Env) (p : Plan) (i : Fin p.uris.length) : List BSONObj :=
  (p.source env i).documents

/-- An exception or the signal leaves the thread number `i`, after its documents. -/
def throws (env : Env) (p : Plan) (i : Fin p.uris.length) : Prop :=
  (p.source env i).thrown ≠ none

/-- The threads when `main` has started them. -/
def start (env : Env) (p : Plan) : LineConfig qCapacity (Fin p.uris.length) :=
  linesStart qCapacity p.totalCount (p.cursors env)

end Plan

/-- What the writer has written to its stream. -/
def Locals.output : Locals → List UInt8
  | dumpMongod _ => []
  | dumpWriter _ _ _ out => out

/-- The output file with its contents, if the stream of the writer was open. -/
def outputFile (env : Env) (path : Str) (contents : List UInt8) : Option (Str × List UInt8) :=
  if env.opens path then some (path, contents) else none

/-- The process: `main` waits for the threads; or it has returned, with the output file and its
contents if a writer has opened one; or `std::terminate` or a signal has ended it. -/
inductive Process
  | joining (console : Console) (p : Plan) (f : LineConfig qCapacity (Fin p.uris.length))
  | exited (status : Int32) (console : Console) (file : Option (Str × List UInt8))
  | terminated (console : Console)

/-- What follows the `try` block, if it does not get so far as to join the threads: the `catch`, or no
handler. -/
def afterTry (env : Env) : Except Thrown Plan × Console → Process
  | (.ok p, console) => .joining console p (p.start env)
  | (.error (.dbException what), console) =>
      .exited 0 (console ++ [(.cout, ascii "caught " ++ what)]) none
  | (.error (.text _), console) => .terminated console
  | (.error .nullPointer, console) => .terminated console

/-- What `main` prints before it connects. -/
def greeting (mongodb db collection : Str) : Console :=
  [(.cout, ascii "mongodb: " ++ mongodb), (.cout, ascii "db: " ++ db),
    (.cout, ascii "collection: " ++ collection)]

/-- `main(argc, argv)` up to the threads, from the options in `argv`: `none` if
`po::parse_command_line`, `po::store` or `po::notify` throws, which stand outside the `try` block. -/
def main (env : Env) : Option VariablesMap → Process
  | none => .terminated []
  | some vm =>
      if vm.help then .exited 1 [(.cout, env.desc)] none
      else
        match vm.db, vm.collection with
        | none, _ => .exited 1 [(.cerr, ascii "db must be set."), (.cerr, env.desc)] none
        | some _, none =>
            .exited 1 [(.cerr, ascii "collection must be set."), (.cerr, env.desc)] none
        | some db, some collection =>
            let mongodb := address vm.host vm.port
            afterTry env (prepare env mongodb db collection vm.out (greeting mongodb db collection))

/-- What `main` prints when it has joined the threads. -/
def farewell (env : Env) : Stream × Str :=
  match env.shardsCount with
  | .ok n => (.cout, ascii "config.shards count:" ++ decimal n.toNat)
  | .error what => (.cout, ascii "caught " ++ what)

/-- A step of the process, and whether it is a spurious wakeup: a line of a thread; what leaves a
thread and ends the process; or the end of `main` when all threads have returned. -/
inductive Process.Step (env : Env) : Bool → Process → Process → Prop
  | line {console : Console} {p : Plan} {f f' : LineConfig qCapacity (Fin p.uris.length)}
      {t : Option (Fin p.uris.length)} :
      (dumpLines qCapacity env.isValid).Step (.run t) f f' →
      Step env false (.joining console p f) (.joining console p f')
  | spurious {console : Console} {p : Plan} {f f' : LineConfig qCapacity (Fin p.uris.length)}
      {t : Option (Fin p.uris.length)} :
      (dumpLines qCapacity env.isValid).Step (.spurious t) f f' →
      Step env true (.joining console p f) (.joining console p f')
  | throw {console : Console} {p : Plan} {f : LineConfig qCapacity (Fin p.uris.length)}
      {i : Fin p.uris.length} :
      (dumpLines qCapacity env.isValid).Finished f (some i) → p.throws env i →
      Step env false (.joining console p f) (.terminated console)
  | join {console : Console} {p : Plan} {f : LineConfig qCapacity (Fin p.uris.length)} :
      (∀ t, (dumpLines qCapacity env.isValid).Finished f t) → (∀ i, ¬ p.throws env i) →
      Step env false (.joining console p f)
        (.exited 0 (console ++ [farewell env]) (outputFile env p.out (f.loc none).output))

/-! ### What `main` starts -/

/-- The result of a statement, whatever has been printed. -/
def Results {α : Type} (x : Try α) (r : Except Thrown α) : Prop := ∀ console, (x console).1 = r

namespace Results

variable {α β : Type} {x : Try α} {f : α → Try β} {a : α} {r : Except Thrown β} {e : Thrown}
  {what : Str} {reply : Except Str α}

theorem pure (a : α) : Results (Pure.pure a : Try α) (.ok a) := fun _ => rfl

theorem throw (e : Thrown) : Results (Tools.throw e : Try α) (.error e) := fun _ => rfl

theorem print (stream : Stream) (text : Str) : Results (Tools.print stream text) (.ok ()) :=
  fun _ => rfl

theorem call_ok (h : reply = .ok a) : Results (call reply) (.ok a) := by
  rw [h]
  exact pure a

theorem bind_ok (h : Results x (.ok a)) (hf : Results (f a) r) : Results (x >>= f) r := by
  intro console
  have hx := h console
  show (match x console with | (.ok a, console) => f a console | (.error e, console) => _).1 = r
  generalize x console = y at hx
  obtain ⟨y, console'⟩ := y
  obtain rfl : y = .ok a := hx
  exact hf console'

theorem bind_error (h : Results x (.error e)) : Results (x >>= f) (.error e) := by
  intro console
  have hx := h console
  show (match x console with | (.ok a, console) => f a console | (.error e, console) => _).1 = _
  generalize x console = y at hx
  obtain ⟨y, console'⟩ := y
  obtain rfl : y = .error e := hx
  rfl

end Results

/-- The loop over `config.shards` makes an assignment for every document that it can print. -/
theorem results_readShards {env : Env} {ds : List BSONObj}
    (hds : ∀ d ∈ ds, ∃ json, env.jsonString d = .ok json) (entries : List (Str × Str)) :
    Results (ds.foldlM (readShard env) (Assignments.assign entries))
      (.ok (Assignments.assign (entries ++ ds.map (shardEntry env)))) := by
  induction ds generalizing entries with
  | nil =>
    rw [List.map_nil, List.append_nil]
    exact Results.pure _
  | cons d ds ih =>
    rw [List.forall_mem_cons] at hds
    obtain ⟨⟨json, hjson⟩, hds⟩ := hds
    have h := ih hds (entries ++ [shardEntry env d])
    rw [Assignments.assign_concat, List.append_assoc, List.singleton_append] at h
    rw [List.foldlM_cons, List.map_cons]
    exact .bind_ok (.bind_ok (.call_ok hjson) (.bind_ok (.print _ _) (.pure _))) h

/-- The loop that starts the threads prints a line for each. -/
theorem results_forM_print (shards : List (Str × Str)) (text : Str × Str → Str) :
    Results (shards.forM fun it => print .cout (text it)) (.ok ()) := by
  induction shards with
  | nil => exact Results.pure ()
  | cons it shards ih => exact .bind_ok (.print _ _) ih

section Prepare

variable {env : Env} {mongodb db collection out : Str} {ret : BSONObj} {count : UInt64}
  {addresses : List Str}

/-- What `main` has learned when it has counted the documents. -/
structure Connected (env : Env) (mongodb db collection : Str) (ret : BSONObj) (count : UInt64) :
    Prop where
  connect_eq : env.connection.connect mongodb = .ok ()
  runCommand_eq : env.connection.runCommand = .ok (true, ret)
  count_eq : env.connection.count (namespaceOf db collection) = .ok count

/-- The addresses that the threads connect to: a server that is no `mongos` is dumped itself;
otherwise there is a thread for every name in `config.shards`, in the order of the names, for the
address in the last document with the name. -/
inductive Addresses (env : Env) (mongodb : Str) (ret : BSONObj) : List Str → Prop
  | mongod : env.getStringField ret "process" ≠ ascii "mongos" → Addresses env mongodb ret [mongodb]
  | mongos {ds : List BSONObj} {shards : List (Str × Str)} :
      env.getStringField ret "process" = ascii "mongos" →
      env.connection.query (ascii "config.shards") = .ok (some ⟨ds, none⟩) →
      (∀ d ∈ ds, ∃ json, env.jsonString d = .ok json) →
      shards.Pairwise Assignments.Below →
      (∀ name uri, (name, uri) ∈ shards ↔
        Assignments.Latest (ds.map (shardEntry env)) name uri) →
      Addresses env mongodb ret (shards.map Prod.snd)

/-- The server is a `mongos`, and there is no cursor for its shards. -/
def Lost (env : Env) (ret : BSONObj) : Prop :=
  env.getStringField ret "process" = ascii "mongos" ∧
    env.connection.query (ascii "config.shards") = .ok none

theorem results_isMongos (env : Env) {mongo : Connection} (h : mongo.runCommand = .ok (true, ret)) :
    Results (isMongos env mongo) (.ok (env.getStringField ret "process" = ascii "mongos")) := by
  refine .bind_ok (.call_ok h) ?_
  exact .pure _

theorem results_uris (h : Addresses env mongodb ret addresses) :
    Results (uris env mongodb (env.getStringField ret "process" = ascii "mongos"))
      (.ok addresses) := by
  cases h with
  | mongod hprocess =>
    rw [decide_eq_false hprocess]
    exact .bind_ok (.print _ _) (.pure _)
  | @mongos ds shards hprocess hquery hds hsorted hmem =>
    rw [decide_eq_true hprocess, Assignments.eq_toList_assign hsorted hmem]
    refine .bind_ok (.print _ _) (.bind_ok (.call_ok hquery) (.bind_ok (.pure _) ?_))
    refine .bind_ok (results_readShards hds []) (.bind_ok (.call_ok rfl) ?_)
    exact .bind_ok (results_forM_print _ _) (.pure _)

theorem prepare_of_connected (h : Connected env mongodb db collection ret count)
    {r : Except Thrown (List Str)}
    (hr : Results (uris env mongodb (env.getStringField ret "process" = ascii "mongos")) r) :
    Results (prepare env mongodb db collection out)
      (r.map fun addresses => ⟨totalCount count, out, namespaceOf db collection, addresses⟩) := by
  refine .bind_ok (.call_ok h.connect_eq) (.bind_ok (.print _ _) ?_)
  refine .bind_ok (results_isMongos env h.runCommand_eq) (.bind_ok (.call_ok h.count_eq) ?_)
  cases r with
  | ok addresses => exact .bind_ok hr (.pure _)
  | error e => exact .bind_error hr

/-- Something that is not caught ends `main` before the threads: the server does not answer
`serverStatus`, or there is no cursor for its shards. -/
inductive Breaks (env : Env) (mongodb db collection : Str) : Prop
  | refuses {ret : BSONObj} : env.connection.connect mongodb = .ok () →
      env.connection.runCommand = .ok (false, ret) → Breaks env mongodb db collection
  | lost {ret : BSONObj} {count : UInt64} : Connected env mongodb db collection ret count →
      Lost env ret → Breaks env mongodb db collection

end Prepare

section Main

variable {env : Env} {vm : VariablesMap} {options : Option VariablesMap} {p : Plan}

/-- The options ask for a dump. -/
def VariablesMap.Accepted (vm : VariablesMap) : Prop := ∃ db collection, vm.Names db collection

/-- `main` starts the threads of `p`. -/
def Starts (env : Env) (options : Option VariablesMap) (p : Plan) : Prop :=
  ∃ vm db collection ret count addresses, options = some vm ∧ vm.Names db collection ∧
    Connected env (address vm.host vm.port) db collection ret count ∧
    Addresses env (address vm.host vm.port) ret addresses ∧
    p = ⟨totalCount count, vm.out, namespaceOf db collection, addresses⟩

/-- `main` is ended before the threads by something that is not caught: the command line is rejected,
or see `Breaks`. -/
def Dies (env : Env) (options : Option VariablesMap) : Prop :=
  options = none ∨ ∃ vm db collection, options = some vm ∧ vm.Names db collection ∧
    Breaks env (address vm.host vm.port) db collection

/-- `main` prints its usage: the options do not ask for a dump. -/
def Usage (options : Option VariablesMap) : Prop := ∃ vm, options = some vm ∧ ¬ vm.Accepted

theorem main_of_names {db collection : Str} {r : Except Thrown Plan} (h : vm.Names db collection)
    (hr : Results (prepare env (address vm.host vm.port) db collection vm.out) r) :
    ∃ console, main env (some vm) = afterTry env (r, console) := by
  refine ⟨(prepare env (address vm.host vm.port) db collection vm.out
    (greeting (address vm.host vm.port) db collection)).2, ?_⟩
  rw [main, h.help_eq, h.db_eq, h.collection_eq, ← hr]
  rfl

theorem main_of_starts (h : Starts env options p) :
    ∃ console, main env options = .joining console p (p.start env) := by
  obtain ⟨vm, db, collection, ret, count, addresses, rfl, hnames, hconnected, haddr, rfl⟩ := h
  exact main_of_names hnames (prepare_of_connected hconnected (results_uris haddr))

/-- The threads are determined by the options and by what the servers answer. -/
theorem Starts.unique {p' : Plan} (h : Starts env options p) (h' : Starts env options p') :
    p' = p := by
  obtain ⟨console, hmain⟩ := main_of_starts h
  obtain ⟨console', hmain'⟩ := main_of_starts h'
  cases hmain.symm.trans hmain'
  rfl

theorem Starts.exists_iff (h : Starts env options p) {Q : Plan → Prop} :
    (∃ p, Starts env options p ∧ Q p) ↔ Q p := by
  constructor
  · rintro ⟨p', hp', hQ⟩
    exact h.unique hp' ▸ hQ
  · exact fun hQ => ⟨p, h, hQ⟩

end Main

end Tools
end MongoUtils
