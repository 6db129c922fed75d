import Radish.RespGrammar

/-!
# The grammar of replies

A reply of the server as a tree: lines, bulk strings, and the arrays and maps made of them. Every
encoder writes such a tree.
-/

namespace Radish.RespCodec
set_option autoImplicit false

/-- The items of a map are its keys and values in turn. -/
inductive Reply where
  | simple (text : Bytes)
  | error (text : Bytes)
  | integer (value : Int)
  | bulk (value : Bytes)
  | nullBulk
  | null
  | array (items : List Reply)
  | map (items : List Reply)

namespace Reply

mutual
def encode : Reply → Bytes
  | .simple text => byte '+' :: (text ++ crlf)
  | .error text => byte '-' :: (text ++ crlf)
  | .integer value => RespCodec.integer value
  | .bulk value => RespCodec.bulk value
  | .nullBulk => ascii "$-1\r\n"
  | .null => ascii "_\r\n"
  | .array items => byte '*' :: (Decimal.print items.length ++ (crlf ++ encodeAll items))
  | .map items => byte '%' :: (Decimal.print (items.length / 2) ++ (crlf ++ encodeAll items))

def encodeAll : List Reply → Bytes
  | [] => []
  | item :: items => item.encode ++ encodeAll items
end

mutual
/-- The type bytes of the reply and of the replies in it. -/
def types : Reply → List UInt8
  | .simple _ => [byte '+']
  | .error _ => [byte '-']
  | .integer _ => [byte ':']
  | .bulk _ => [byte '$']
  | .nullBulk => [byte '$']
  | .null => [byte '_']
  | .array items => byte '*' :: typesAll items
  | .map items => byte '%' :: typesAll items

def typesAll : List Reply → List UInt8
  | [] => []
  | item :: items => item.types ++ typesAll items
end

mutual
/-- Whether there is no error in the reply. -/
def succeeds : Reply → Bool
  | .error _ => false
  | .array items => succeedsAll items
  | .map items => succeedsAll items
  | _ => true

def succeedsAll : List Reply → Bool
  | [] => true
  | item :: items => item.succeeds && succeedsAll items
end

/-- The text of a line, without the bytes that end one. -/
def IsText (text : Bytes) : Prop := byte '\r' ∉ text ∧ byte '\n' ∉ text

/-- What can be told apart by a reader of this many levels whose sizes are `long long`. -/
inductive Readable : Nat → Reply → Prop where
  | simple {levels : Nat} {text : Bytes} (line : IsText text) : Readable (levels + 1) (.simple text)
  | error {levels : Nat} {text : Bytes} (line : IsText text) : Readable (levels + 1) (.error text)
  | integer {levels : Nat} (value : Int) : Readable (levels + 1) (.integer value)
  | bulk {levels : Nat} {value : Bytes} (fits : value.length < 2 ^ 63) :
      Readable (levels + 1) (.bulk value)
  | nullBulk {levels : Nat} : Readable (levels + 1) .nullBulk
  | null {levels : Nat} : Readable (levels + 1) .null
  | array {levels : Nat} {items : List Reply} (fits : items.length < 2 ^ 63)
      (each : ∀ item ∈ items, Readable levels item) : Readable (levels + 1) (.array items)
  | map {levels : Nat} {items : List Reply} (even : items.length % 2 = 0)
      (fits : items.length < 2 ^ 63) (each : ∀ item ∈ items, Readable levels item) :
      Readable (levels + 1) (.map items)

theorem encodeAll_eq (items : List Reply) : encodeAll items = items.flatMap encode := by
  induction items with
  | nil => rfl
  | cons item items ih => rw [encodeAll, ih, List.flatMap_cons]

theorem typesAll_eq (items : List Reply) : typesAll items = items.flatMap types := by
  induction items with
  | nil => rfl
  | cons item items ih => rw [typesAll, ih, List.flatMap_cons]

theorem succeedsAll_eq (items : List Reply) : succeedsAll items = items.all succeeds := by
  induction items with
  | nil => rfl
  | cons item items ih => rw [succeedsAll, ih, List.all_cons]

end Reply

section Encoders
variable {levels : Nat}

theorem isText_sanitize (value : Bytes) : Reply.IsText (sanitizeSimpleValue value) := by
  unfold sanitizeSimpleValue
  constructor <;> intro hmem <;> rcases List.mem_map.mp hmem with ⟨character, -, h⟩ <;>
    split at h <;> simp_all [byte]

theorem isText_append {text text' : Bytes} (h : Reply.IsText text) (h' : Reply.IsText text') :
    Reply.IsText (text ++ text') := by
  simp only [Reply.IsText, List.mem_append, not_or]
  exact ⟨⟨h.1, h'.1⟩, h.2, h'.2⟩

theorem simpleString_eq (value : Bytes) :
    simpleString value = (Reply.simple (sanitizeSimpleValue value)).encode := by
  rw [simpleString, Reply.encode]

theorem error_eq (message : Bytes) :
    error message = (Reply.error (ascii "ERR " ++ sanitizeSimpleValue message)).encode := by
  rw [error, Reply.encode]
  rfl

theorem integer_eq (value : Int) : integer value = (Reply.integer value).encode := by
  rw [Reply.encode]

/-- The tree of `BulkString`. -/
def bulkReply : Option Bytes → RespVersion → Reply
  | none, .resp3 => .null
  | none, .resp2 => .nullBulk
  | some value, _ => .bulk value

theorem bulkString_eq (value : Option Bytes) (version : RespVersion) :
    bulkString value version = (bulkReply value version).encode := by
  rcases value with _ | value <;> cases version <;> rw [bulkString, bulkReply, Reply.encode]

theorem array_eq (values : List Bytes) (version : RespVersion) :
    array values version = (Reply.array (values.map .bulk)).encode := by
  have hitems : (values.map Reply.bulk).flatMap Reply.encode =
      values.flatMap fun value => bulkString (some value) .resp2 := by
    rw [List.flatMap_map]
    simp only [Reply.encode, bulkString]
  rw [array, Reply.encode, Reply.encodeAll_eq, hitems, List.length_map, List.append_assoc]

/-- The tree of `Hello`: the last value of the map is an empty array. -/
def helloReply : RespVersion → Reply
  | .resp2 => .array ((helloValues "2").map .bulk)
  | .resp3 =>
    .map (((helloValues "3").take 10).map .bulk ++ [.bulk (ascii "modules"), .array []])

theorem hello_eq (version : RespVersion) : hello version = (helloReply version).encode := by
  cases version with
  | resp2 => exact array_eq (helloValues "2") .resp2
  | resp3 => decide

end Encoders

end Radish.RespCodec
