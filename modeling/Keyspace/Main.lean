import Keyspace.Node

/-!
# The command line of the node

Arguments and lines go to `Node`, logs to the two streams. The clock is read once for each line.
-/

namespace Keyspace

/-- A log is printed. -/
def Log.print (log : Log) : IO Unit := do
  let out ← IO.getStdout
  let err ← IO.getStderr
  for line in log.out do
    out.write ⟨(line ++ [10]).toArray⟩
  for line in log.err do
    err.write ⟨(line ++ [10]).toArray⟩
  out.flush
  err.flush

/-- The bytes up to the next line feed, after `read`; none at the end of the input. -/
partial def nextLine (input : IO.FS.Stream) (read : Array UInt8) : IO (Option Bytes) := do
  let chunk ← input.read 1
  match chunk.toList with
  | [] => return if read.isEmpty then none else some read.toList
  | b :: _ => if b = 10 then return some read.toList else nextLine input (read.push b)

/-- A clock that shows the present time. -/
def Clock.present : IO Clock := do
  return .still (Int64.ofNat (← IO.monoNanosNow))

/-- The node serves the lines of the input. -/
partial def Node.serve (n : Node) (input : IO.FS.Stream) : IO Unit := do
  match ← nextLine input #[] with
  | none => n.close.print
  | some line =>
    match { n with clock := ← Clock.present }.feed? line with
    | none => n.close.print
    | some (n, log) =>
      log.print
      n.serve input

end Keyspace

open Keyspace in
/-- Serves the partitions that the arguments describe; exits with 1 if they are refused. -/
def main (arguments : List String) : IO UInt32 := do
  match Node.start (← Clock.present) (arguments.map fun a => a.toUTF8.toList) with
  | .error (.refused log) =>
    log.print
    return 1
  | .error (.uncaught log f) =>
    (log ++ Node.complaint f).print
    return 134
  | .ok (n, log) =>
    log.print
    n.serve (← IO.getStdin)
    return 0
