import Radish.Library.Decimal
import Radish.Types

/-!
# RespCodec

The request parser and the reply encoders of the RESP protocol. The parser works on the bytes
buffered so far and addresses them by offsets, as the source does.
-/

namespace Radish
set_option autoImplicit false

def byte (c : Char) : UInt8 := UInt8.ofNat c.toNat

def ascii (s : String) : Bytes := s.toList.map byte

def crlf : Bytes := [byte '\r', byte '\n']

inductive RespVersion where
  | resp2
  | resp3
  deriving DecidableEq

structure RespCommand where
  arguments : List Bytes
  deriving DecidableEq

inductive RespParseResult where
  | complete (command : RespCommand) (consumed : Nat)
  | incomplete
  | error (what : String)
  deriving DecidableEq

namespace RespCodec

def kMaxArguments : Nat := 1024
def kMaxBulkLength : Nat := 4 * 1024 * 1024
def kMaxBufferedInput : Nat := 8 * 1024 * 1024

/-- The place of the first CRLF. -/
def crlfIndex : Bytes → Option Nat
  | a :: b :: rest =>
    if a = byte '\r' ∧ b = byte '\n' then some 0 else (crlfIndex (b :: rest)).map (· + 1)
  | _ => none

/-- `input.find("\r\n", offset)` -/
def find (input : Bytes) (offset : Nat) : Option Nat :=
  (crlfIndex (input.drop offset)).map (offset + ·)

/-- `std::from_chars` for a `long long`: the value, and the bytes after the numeral. -/
def fromChars (number : Bytes) : Option (Int × Bytes) :=
  let negative : Bool := number.head? = some (byte '-')
  let digits := if negative then number.tail else number
  let magnitude : Int := Decimal.read (digits.takeWhile Decimal.isDigit)
  let value := if negative then -magnitude else magnitude
  if digits.takeWhile Decimal.isDigit = [] ∨ value < -2 ^ 63 ∨ 2 ^ 63 ≤ value then none
  else some (value, digits.dropWhile Decimal.isDigit)

inductive NumberStatus where
  | complete (value : Int) (next : Nat)
  | incomplete
  | error
  deriving DecidableEq

def parseNumber (input : Bytes) (offset : Nat) : NumberStatus :=
  match find input offset with
  | none => .incomplete
  | some terminator =>
    if terminator = offset then .error
    else
      match fromChars ((input.drop offset).take (terminator - offset)) with
      | some (value, []) => .complete value (terminator + 2)
      | _ => .error

/-- The loop of `ParseCommand`, with `count` bulk strings still to come. -/
def parseArguments (input : Bytes) : Nat → Nat → List Bytes → RespParseResult
  | 0, offset, arguments => .complete ⟨arguments⟩ offset
  | count + 1, offset, arguments =>
    if offset = input.length then .incomplete
    else if input[offset]? ≠ some (byte '$') then
      .error "Protocol error: expected a bulk string"
    else
      match parseNumber input (offset + 1) with
      | .incomplete => .incomplete
      | .error => .error "Protocol error: invalid bulk string length"
      | .complete length dataOffset =>
        if length < 0 ∨ length > kMaxBulkLength then
          .error "Protocol error: invalid bulk string length"
        else
          let bulkLength := length.toNat
          if dataOffset > input.length ∨ bulkLength > input.length - dataOffset then .incomplete
          else if input.length - dataOffset - bulkLength < 2 then .incomplete
          else if input[dataOffset + bulkLength]? ≠ some (byte '\r') ∨
              input[dataOffset + bulkLength + 1]? ≠ some (byte '\n') then
            .error "Protocol error: invalid bulk string terminator"
          else
            parseArguments input count (dataOffset + bulkLength + 2)
              (arguments ++ [(input.drop dataOffset).take bulkLength])

def parseCommand (input : Bytes) : RespParseResult :=
  match input with
  | [] => .incomplete
  | front :: _ =>
    if front ≠ byte '*' then .error "Protocol error: expected an array request"
    else
      match parseNumber input 1 with
      | .incomplete => .incomplete
      | .error => .error "Protocol error: invalid argument count"
      | .complete count offset =>
        if count ≤ 0 ∨ count > kMaxArguments then
          .error "Protocol error: invalid argument count"
        else parseArguments input count.toNat offset []

def bulk (value : Bytes) : Bytes :=
  byte '$' :: (Decimal.print value.length ++ (crlf ++ (value ++ crlf)))

def encodeCommand (arguments : List Bytes) : Bytes :=
  byte '*' :: (Decimal.print arguments.length ++ (crlf ++ arguments.flatMap bulk))

def sanitizeSimpleValue (value : Bytes) : Bytes :=
  value.map fun character =>
    if character = byte '\r' ∨ character = byte '\n' then byte ' ' else character

def simpleString (value : Bytes) : Bytes := byte '+' :: (sanitizeSimpleValue value ++ crlf)

def error (message : Bytes) : Bytes := ascii "-ERR " ++ sanitizeSimpleValue message ++ crlf

def integer (value : Int) : Bytes :=
  byte ':' :: ((if value < 0 then [byte '-'] else []) ++ Decimal.print value.natAbs ++ crlf)

def bulkString (value : Option Bytes) (version : RespVersion) : Bytes :=
  match value, version with
  | none, .resp3 => ascii "_\r\n"
  | none, .resp2 => ascii "$-1\r\n"
  | some value, _ => bulk value

/-- The version is not consulted. -/
def array (values : List Bytes) (_version : RespVersion) : Bytes :=
  byte '*' :: (Decimal.print values.length ++ crlf ++
    values.flatMap fun value => bulkString (some value) .resp2)

def helloValues (protocol : String) : List Bytes :=
  [ascii "server", ascii "radish", ascii "version", ascii "0.1", ascii "proto", ascii protocol,
    ascii "mode", ascii "standalone", ascii "role", ascii "master", ascii "modules", []]

def hello (version : RespVersion) : Bytes :=
  match version with
  | .resp2 => array (helloValues "2") version
  | .resp3 =>
    -- the last pair is written by hand: its value is an empty array, not a string
    let pairs := (helloValues "3").take ((helloValues "3").length - 2)
    ascii "%6\r\n" ++ pairs.flatMap (fun value => bulkString (some value) version) ++
      bulkString (some (ascii "modules")) version ++ ascii "*0\r\n"

end RespCodec

end Radish
