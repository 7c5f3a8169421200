import PgRedisProxy.Base.Scan
import PgRedisProxy.Store.Requests

/-!
# The configuration file (`init_configuration`)

`Loader` is the state of `init_configuration` and `Loader.step` one turn of its loop over
the lines or of its loop over the tokens of a `save` line. The locals that are not set
before the first line are a parameter, `Scratch`. What the file contains is any bytes;
the buffers are as long as their contents need, and logging is left out.
-/

namespace PgRedisProxy

open CLang

/-- `struct SnapshotData` -/
structure SnapshotData where
  savingPeriod : Nat
  actionsNeeded : Nat
  deriving DecidableEq, Repr

/-- `struct ProxyConfiguration`. The numbers other than `snapshotdataCount` are `unsigned int`. -/
structure ProxyConfiguration where
  port : Nat
  backlogSize : Nat
  dbCount : Nat
  daemonize : Bool
  rawBind : Option CString
  logfile : Option CString
  snapshotdataCount : Int
  saveData : Option (List SnapshotData)
  cachingRegime : DumpStatus

/-- `DEFAULT_CONFIG` -/
def ProxyConfiguration.default : ProxyConfiguration where
  port := 6379
  backlogSize := 512
  dbCount := 16
  daemonize := false
  rawBind := none
  logfile := none
  snapshotdataCount := 0
  saveData := none
  cachingRegime := .noCache

/-- The value an `unsigned int` keeps of an integer. -/
def toUnsigned (n : Int) : Nat :=
  (n % 2 ^ 32).toNat

/-- An integer that a `long` holds. -/
def InLong (n : Int) : Prop :=
  -(2 ^ 63) ≤ n ∧ n < 2 ^ 63

instance (n : Int) : Decidable (InLong n) :=
  inferInstanceAs (Decidable (_ ∧ _))

/-- `parse_int_from_value_correctly`, whose result is nothing where it returns `-1`. -/
def parseIntFromValueCorrectly (parameterValue : List UInt8) : Option Int :=
  match strtol parameterValue with
  | none => none
  | some (result, end') => if InLong result ∧ end' = [] then some result else none

/-- The locals of the loop over the tokens of a `save` line: the token that is looked at, what
`strtok` has left, and of `current_data` and `save_data` what is set. -/
structure SaveLoop where
  token : Option (List UInt8)
  left : List UInt8
  isCurTime : Bool
  savingPeriod : Nat
  saveData : List SnapshotData

/-- What is done with a token that is a number: it is a saving period, or the actions needed, which
are read again with `atoi`. -/
def SaveLoop.put (t : SaveLoop) (value : Int) : SaveLoop :=
  if t.isCurTime then { t with savingPeriod := toUnsigned value, isCurTime := false }
  else
    { t with
      saveData := t.saveData ++ [⟨t.savingPeriod, toUnsigned (wrap32 value)⟩]
      isCurTime := true }

/-- Where `init_configuration` is: at the test of one of its loops, behind the loop over the lines,
or out of it with an error. -/
inductive Control where
  | lines
  | tokens (t : SaveLoop)
  | finished
  | raised

/-- The state of `init_configuration`, with what is left of the file. -/
structure Loader where
  input : List UInt8
  line : CString
  parameterName : CString
  parameterValue : CString
  config : ProxyConfiguration
  control : Control

namespace Loader

/-- A directive with a number, which `store` puts where it belongs. -/
def number (s : Loader) (store : Nat → ProxyConfiguration) : Loader :=
  match parseIntFromValueCorrectly s.parameterValue.bytes with
  | none => s
  | some value => { s with config := store (toUnsigned value) }

/-- The token after the ones before, if there is one. -/
def nextToken (t : SaveLoop) (text : List UInt8) : SaveLoop :=
  match strtok 32 text with
  | none => { t with token := none, left := [] }
  | some (token, left) => { t with token := some token, left := left }

/-- `save`, up to the test of its loop. -/
def save (s : Loader) : Loader :=
  { s with
    parameterValue := .ofBytes (strtokHead 32 s.parameterValue.bytes)
    control := .tokens (nextToken ⟨none, [], true, 0, []⟩ s.parameterValue.bytes) }

/-- `cache-regime` -/
def cacheRegime (s : Loader) : Loader :=
  let value := s.parameterValue.bytes
  if value = ascii "no-cache" then { s with config.cachingRegime := .noCache }
  else if value = ascii "get-cache" then { s with config.cachingRegime := .getCache }
  else if value = ascii "only-cache" then { s with config.cachingRegime := .onlyCache }
  else if value = ascii "deffer-dump" then { s with config.cachingRegime := .defferDump }
  else s

/-- What is done with a name and a value. -/
def directive (s : Loader) : Loader :=
  let name := s.parameterName.bytes
  if name = ascii "port" then s.number fun n => { s.config with port := n }
  else if name = ascii "tcp-backlog" then s.number fun n => { s.config with backlogSize := n }
  else if name = ascii "databases" then s.number fun n => { s.config with dbCount := n }
  else if name = ascii "bind" then { s with config.rawBind := some s.parameterValue }
  else if name = ascii "logfile" then { s with config.logfile := some s.parameterValue }
  else if name = ascii "daemonize" then
    if s.parameterValue.bytes = ascii "yes" then { s with config.daemonize := true } else s
  else if name = ascii "save" then s.save
  else if name = ascii "cache-regime" then s.cacheRegime
  else s

/-- What is done with a line. `sscanf` leaves `parameter_value` as it was if only a name is
there. -/
def parseLine (s : Loader) : Loader :=
  if s.line.strlen = 0 then s
  else if s.line.bytes.head? = some 35 then s
  else
    match scanField s.line.bytes with
    | none => { s with control := .raised }
    | some (name, value) =>
        directive { s with
          parameterName := .ofBytes name
          parameterValue := (value.map .ofBytes).getD s.parameterValue }

/-- One turn of the loop over the lines. Where `fscanf` matches nothing, the line is the one
before. -/
def lineTurn (s : Loader) : Loader :=
  match scanLine s.input with
  | .eof => { s with control := .finished }
  | .noMatch => s.parseLine
  | .line text rest => parseLine { s with input := rest, line := .ofBytes text }

/-- One turn of the loop over the tokens. A token that is no number is not passed. -/
def tokenTurn (s : Loader) (t : SaveLoop) : Loader :=
  match t.token with
  | none => { s with config.saveData := some t.saveData, control := .lines }
  | some token =>
      match parseIntFromValueCorrectly token with
      | none => s
      | some value => { s with control := .tokens (nextToken (t.put value) t.left) }

/-- One turn of the loop that `init_configuration` is in. -/
def step (s : Loader) : Loader :=
  match s.control with
  | .lines => s.lineTurn
  | .tokens t => s.tokenTurn t
  | .finished => s
  | .raised => s

end Loader

/-- The locals of `init_configuration` before they are set. -/
structure Scratch where
  line : CString
  parameterName : CString
  parameterValue : CString

/-- `init_configuration`, up to the test of its first loop, with this file. -/
def initConfiguration (file : List UInt8) (scratch : Scratch) : Loader where
  input := file
  line := scratch.line
  parameterName := scratch.parameterName
  parameterValue := scratch.parameterValue
  config := .default
  control := .lines

end PgRedisProxy
