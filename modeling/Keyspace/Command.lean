import Keyspace.Assoc
import Keyspace.Failure
import Keyspace.Numeral

/-!
# Commands

A line is split at white space into tokens, and the tokens are read as a command by its name and
their number. Only the shape of a command is looked at here; what its words mean is found out when
it is carried out. The word `quit` is a command whatever follows it.
-/

namespace Keyspace

/-- A word that is being read, last byte first, as a list of no or one token. -/
def wordRead (word : Bytes) : List Bytes :=
  if word.isEmpty then [] else [word.reverse]

/-- The tokens of a text, after `word` was read of the first, last byte first. -/
def tokensAfter (word : Bytes) : Bytes → List Bytes
  | [] => wordRead word
  | b :: rest =>
    if Bytes.isBlank b then wordRead word ++ tokensAfter [] rest
    else tokensAfter (b :: word) rest

/-- **The tokens of a line.** -/
def tokens (line : Bytes) : List Bytes :=
  tokensAfter [] line

/-- **Commands.** -/
inductive Command where
  /-- A line without tokens. -/
  | blank
  | quit
  | put (key text : Bytes)
  | get (key : Bytes)
  | conditionalGet (key predicate : Bytes)
  | remove (key : Bytes)
  | update (key function : Bytes) (assignments : List Bytes)
  | range (first : Bytes) (last limit order : Option Bytes)
  | keys
  | flush
  | unknown
deriving DecidableEq, Repr

namespace Command

/-- The command that a list of tokens writes. -/
def ofTokens : List Bytes → Command
  | [] => blank
  | name :: arguments =>
    if name = Bytes.ascii "quit" then quit
    else if name = Bytes.ascii "put" then
      match arguments with
      | [key, text] => put key text
      | _ => unknown
    else if name = Bytes.ascii "get" then
      match arguments with
      | [key] => get key
      | _ => unknown
    else if name = Bytes.ascii "cget" then
      match arguments with
      | [key, predicate] => conditionalGet key predicate
      | _ => unknown
    else if name = Bytes.ascii "remove" then
      match arguments with
      | [key] => remove key
      | _ => unknown
    else if name = Bytes.ascii "update" then
      match arguments with
      | key :: function :: assignments => update key function assignments
      | _ => unknown
    else if name = Bytes.ascii "range" then
      match arguments with
      | [first] => range first none none none
      | [first, last] => range first (some last) none none
      | [first, last, limit] => range first (some last) (some limit) none
      | [first, last, limit, order] => range first (some last) (some limit) (some order)
      | _ => unknown
    else if name = Bytes.ascii "keys" then if arguments.isEmpty then keys else unknown
    else if name = Bytes.ascii "flush" then if arguments.isEmpty then flush else unknown
    else unknown

/-- The command of a line. -/
def ofLine (line : Bytes) : Command :=
  ofTokens (tokens line)

/-- The parameters that a list of words of the form `name=value` writes; of two words for one name
the later one counts. -/
def parameters (words : List Bytes) : Outcome (Assoc Bytes Bytes) :=
  words.foldlM
    (fun read word =>
      match word.splitAtFirst 61 with
      | some (name, value) => .ok (read.put name value)
      | none => .error (.assignmentForm word))
    []

/-- The end of a range that a word writes: a dash leaves the range open. -/
def rangeEnd (word : Bytes) : Option Bytes :=
  if word = Bytes.ascii "-" then none else some word

/-- The limit that a word starts with; what follows the numeral is not looked at. -/
def limit (word : Bytes) : Outcome UInt64 :=
  match Numeral.scan word, Numeral.word64? word with
  | none, _ => .error .limitForm
  | some _, none => .error .limitRange
  | some _, some (n, _) => .ok n

end Command

end Keyspace
