import Keyspace.Command
import Keyspace.KeyOrder
import Keyspace.Partition
import Keyspace.Store

/-!
# The partition node

A node serves the partitions of a key space, one bucket each, by commands that are read line by line
(`Command`). The key of a command selects the partition that answers it. What a command gives is
printed as output, what goes wrong as diagnostics, and the node goes on with the next line until it
is told to quit or the input ends.

A range spans all partitions: each gives the first keys of its own range, and the node merges them.
The partitions are asked one after the other, and each reads the clock for itself.
-/

namespace Keyspace

/-- **A partition node.** -/
structure Node where
  config : StoreConfig
  store : Store Value
  clock : Clock

/-- Why a node does not come to serve anything. -/
inductive Halt where
  /-- The arguments are refused, with what is printed about it. -/
  | refused (log : Log)
  /-- A failure that nothing handles, after what was printed until then. -/
  | uncaught (log : Log) (failure : Failure)

namespace Node

/-- How a node is started and what it is told. -/
def usage : Log :=
  .warn (Bytes.ascii ("Usage: partition_node" ++
    " [--partitions=N] [--workers=N] [--queue=N] [--shards=N]" ++
    " [--update-timeout-ms=N] [--snapshot-ttl-ms=N]")) ++
  .warn (Bytes.ascii ("Commands (stdin): put <k> <v> | get <k> | cget <k> <type:expr>" ++
    " | remove <k> | update <k> <function> [name=value...]" ++
    " | range <start> [end] [limit] [comparator] | keys | flush | quit"))

/-- The line of a failure: the code of a store operation, or just that it is an error. -/
def complaint (f : Failure) : Log :=
  match f.code? with
  | some c => .warn (c.name ++ Bytes.ascii ": " ++ f.message)
  | none => .warn (Bytes.ascii "Error: " ++ f.message)

/-- The line of a success without a result. -/
def okay : Log :=
  .say (Bytes.ascii "OK")

/-! ## Start and end -/

/-- The buckets of partitions are created, `count` of them from `first` on, until one cannot be. -/
def createPartitions (s : Store Value) (first : Nat) : Nat → Outcome (Store Value) × Log
  | 0 => (.ok s, {})
  | count + 1 =>
    match s.getOrCreate (Partition.name (Int32.ofNat first)) with
    | (.error f, _, log) => (.error f, log)
    | (.ok _, s, log) =>
      let (result, later) := createPartitions s (first + 1) count
      (result, log ++ later)

/-- What a node says about its configuration. -/
def greeting (c : StoreConfig) : Log :=
  .say (Bytes.ascii "=== Starting Partition Node ===") ++
  .say (Bytes.ascii "Partitions: " ++ Bytes.ofInt c.partitions.toInt) ++
  .say (Bytes.ascii "Update timeout: " ++ Bytes.ofInt c.updateTimeout.toInt ++
    Bytes.ascii "ms") ++
  .say (Bytes.ascii "Snapshot TTL: " ++ Bytes.ofInt c.snapshotTtl.toInt ++ Bytes.ascii "ms")

/-- A node with a given configuration, and what is printed on the way. -/
def ofConfig (clock : Clock) (c : StoreConfig) : Outcome Node × Log :=
  match Store.create ShardedMap.spread c.workers.toNat c.queue.toNat c.shards.toNat with
  | .error f => (.error f, greeting c)
  | .ok (store, started) =>
    let (result, created) := createPartitions store 0 c.partitions.toInt.toNat
    (result.map fun store => { config := c, store, clock }, greeting c ++ started ++ created)

/-- **A node is started** with a list of arguments. Only their refusal is handled. -/
def start (clock : Clock) (arguments : List Bytes) : Except Halt (Node × Log) :=
  match StoreConfig.parse arguments with
  | .error f => .error (.refused (complaint f ++ usage))
  | .ok c =>
    match ofConfig clock c with
    | (.ok n, log) => .ok (n, log)
    | (.error f, log) => .error (.uncaught log f)

/-- A node is shut down. -/
def close (n : Node) : Log :=
  .say (Bytes.ascii "Shutting down...") ++ n.store.destroy.2

/-! ## Commands -/

/-- The bucket that holds the partition of a key. -/
def route (n : Node) (key : Bytes) : Outcome (Instance × Bucket Value) := do
  let name := Partition.name (← Partition.hash key n.config.partitions)
  match ← n.store.get name with
  | none => .error (.bucketMissing name)
  | some i =>
    match n.store.buckets[i]? with
    | none => .error (.bucketMissing name)
    | some b => return (i, b)

/-- The node with another bucket in place of one. -/
def withBucket (n : Node) (i : Instance) (b : Bucket Value) : Node :=
  { n with store := { n.store with buckets := n.store.buckets.set i b } }

/-- A text is stored under a key. -/
def put (n : Node) (key text : Bytes) : Outcome Node := do
  let (i, b) ← n.route key
  let b ← b.put key (some (.text text))
  return n.withBucket i b

/-- The value of a key. -/
def get (n : Node) (key : Bytes) : Outcome Value := do
  let (_, b) ← n.route key
  b.get key

/-- A key is removed. -/
def remove (n : Node) (key : Bytes) : Outcome Node := do
  let (i, b) ← n.route key
  let b ← b.remove key
  return n.withBucket i b

/-- The value of a key if it satisfies a predicate. -/
def conditionalGet (n : Node) (key : Bytes) (p : Predicate) (c : Condition) :
    Outcome (Option Value) := do
  let (_, b) ← n.route key
  b.conditionalGet key p c

/-- A conditional read whose predicate is still a text. -/
def answerConditionalGet (n : Node) (key predicate : Bytes) : Log :=
  match Predicate.parse predicate with
  | .error f => complaint f
  | .ok p =>
    match Condition.ofName? p.type with
    | none => .warn (Bytes.ascii "Unknown condition: " ++ p.type)
    | some c =>
      match n.conditionalGet key p c with
      | .error f => complaint f
      | .ok (some v) => .say v.render
      | .ok none => .say (Bytes.ascii "(no match)")

/-- An update of a key, and what it prints. -/
def update (n : Node) (key : Bytes) (u : Update) (f : Function) : Outcome Unit × Node × Log :=
  match n.route key with
  | .error e => (.error e, n, {})
  | .ok (i, b) =>
    let session := BucketSession.ofBucket b n.store.pool n.clock.now.toInt
    let (result, session, log) :=
      session.update { key, update := u, function := f, timeout := n.config.updateTimeout.toInt }
    (result, { n with store := n.store.absorb i session, clock := n.clock.later 1 }, log)

/-- An update whose function and parameters are still texts. -/
def answerUpdate (n : Node) (key function : Bytes) (assignments : List Bytes) : Node × Log :=
  match Function.ofName? function with
  | none => (n, .warn (Bytes.ascii "Unknown function: " ++ function))
  | some f =>
    match Command.parameters assignments with
    | .error e => (n, complaint e)
    | .ok parameters =>
      match n.update key { functionName := function, parameters } f with
      | (.ok (), n, log) => (n, log ++ okay)
      | (.error e, n, log) => (n, log ++ complaint e)

/-- The node after some readings of its clock. -/
def ticked (n : Node) (readings : Nat) : Node :=
  { n with clock := n.clock.later readings }

/-- The keys of a range in each of a list of instances, one list after the other. -/
def collect (n : Node) (r : Range) (less : Comparison) (snapshot : Bytes) :
    List Instance → Outcome (List Bytes) × Node
  | [] => (.ok [], n)
  | i :: rest =>
    match n.store.buckets[i]? with
    | none => collect n r less snapshot rest
    | some b =>
      let (keys, b) := b.keysInRange r less snapshot n.config.snapshotTtl n.clock
      let n := (n.withBucket i b).ticked SnapshotCache.readings
      match keys with
      | .error f => (.error f, n)
      | .ok keys =>
        let (later, n) := collect n r less snapshot rest
        (later.map (keys ++ ·), n)

/-- **The keys of a range in all partitions**, in order, at most as many as the limit. -/
def keysInRange (n : Node) (r : Range) (order : KeyOrder) (snapshot : Bytes) :
    Outcome (List Bytes) × Node :=
  let (collected, n) := n.collect r order.less snapshot n.store.registered
  (collected.map fun keys =>
    let merged := KeyOrder.sort order.less keys
    if r.limit = 0 then merged else merged.take r.limit.toNat, n)

/-- A range whose limit and order are still texts. -/
def answerRange (n : Node) (first : Bytes) (last limit order : Option Bytes) : Node × Log :=
  let name := order.getD (Bytes.ascii "lexical-asc")
  match (limit.map Command.limit).getD (.ok 0) with
  | .error f => (n, complaint f)
  | .ok limit =>
    match KeyOrder.ofName? name with
    | none => (n, .warn (Bytes.ascii "Unknown comparator: " ++ name))
    | some o =>
      match n.keysInRange { first, last := last.bind Command.rangeEnd, limit } o name with
      | (.error f, n) => (n, complaint f)
      | (.ok keys, n) => (n, { out := keys })

/-- The keys of all partitions, each behind the name of its bucket. -/
def keyLines (n : Node) : List Bytes :=
  n.store.current.flatMap fun b => b.keys.map fun key => b.name ++ Bytes.ascii "/" ++ key

/-- The line of an entry that is flushed. -/
def flushLine (d : Delivery Value) : Bytes :=
  Bytes.ascii "flushed " ++ d.bucket ++ Bytes.ascii "/" ++ d.key ++ Bytes.ascii " = " ++
    d.value.render

/-- **A command is carried out.** -/
def perform (n : Node) : Command → Node × Log
  | .blank => (n, {})
  | .quit => (n, {})
  | .put key text =>
    match n.put key text with
    | .ok n => (n, okay)
    | .error f => (n, complaint f)
  | .get key =>
    match n.get key with
    | .ok v => (n, .say v.render)
    | .error f => (n, complaint f)
  | .conditionalGet key predicate => (n, n.answerConditionalGet key predicate)
  | .remove key =>
    match n.remove key with
    | .ok n => (n, okay)
    | .error f => (n, complaint f)
  | .update key function assignments => n.answerUpdate key function assignments
  | .range first last limit order => n.answerRange first last limit order
  | .keys => (n, { out := n.keyLines })
  | .flush =>
    (n, { out := (n.store.flush (some fun _ => none) fun _ _ => true).2.delivered.map flushLine })
  | .unknown => (n, usage)

/-- The node after a line, and what it prints; none when the line tells it to quit. -/
def feed? (n : Node) (line : Bytes) : Option (Node × Log) :=
  match Command.ofLine line with
  | .quit => none
  | c =>
    some (n.perform c)

/-- **What a node prints** for each line that it reads, and last, for a node that is not told to
quit, at the end of the input. -/
def logs (n : Node) : List Bytes → List Log
  | [] => [n.close]
  | line :: rest =>
    match n.feed? line with
    | none => [n.close]
    | some (n, log) => log :: logs n rest

end Node

end Keyspace
