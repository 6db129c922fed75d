import Mathlib.Data.List.Forall2
import Radish.RespGrammar

/-!
# What the parser accepts, and how its verdicts stand

The grammar of requests spelled out with decimal literals, the parser with every access to its
input checked, and the stability of a verdict under more input.
-/

namespace Radish.RespCodec
set_option autoImplicit false

/-- A decimal literal: digits after an optional minus sign. Leading zeros are allowed. -/
inductive Literal : Int → Bytes → Prop where
  | positive {digits : Bytes} (nonempty : digits ≠ [])
      (all : ∀ b ∈ digits, Decimal.isDigit b = true) : Literal (Decimal.read digits) digits
  | negative {digits : Bytes} (nonempty : digits ≠ [])
      (all : ∀ b ∈ digits, Decimal.isDigit b = true) :
      Literal (-(Decimal.read digits : Int)) (byte '-' :: digits)

/-- `$ size CRLF argument CRLF` -/
def spelledBulk (size argument : Bytes) : Bytes :=
  byte '$' :: (size ++ (crlf ++ (argument ++ crlf)))

/-- `* count CRLF` and the arguments, each after a literal of its size. -/
structure Spelled (arguments : List Bytes) (encoded : Bytes) : Prop where
  nonempty : 1 ≤ arguments.length
  fits : arguments.length ≤ kMaxArguments
  bulk_fits : ∀ argument ∈ arguments, argument.length ≤ kMaxBulkLength
  text : ∃ count sizes, Literal arguments.length count ∧
    List.Forall₂ (fun size argument => Literal (List.length argument) size) sizes arguments ∧
    encoded = byte '*' :: (count ++ (crlf ++ (List.zipWith spelledBulk sizes arguments).flatten))

section Grammar
variable {digits encoded later : Bytes} {value : Int} {arguments values : List Bytes}

theorem fromChars_of_minus (digits : Bytes) :
    fromChars (byte '-' :: digits) =
      if digits.takeWhile Decimal.isDigit = [] ∨
          -(Decimal.read (digits.takeWhile Decimal.isDigit) : Int) < -2 ^ 63 ∨
          2 ^ 63 ≤ -(Decimal.read (digits.takeWhile Decimal.isDigit) : Int) then none
      else some (-(Decimal.read (digits.takeWhile Decimal.isDigit) : Int),
        digits.dropWhile Decimal.isDigit) := by
  simp [fromChars]

theorem fromChars_of_not_minus (h : digits.head? ≠ some (byte '-')) :
    fromChars digits =
      if digits.takeWhile Decimal.isDigit = [] ∨
          (Decimal.read (digits.takeWhile Decimal.isDigit) : Int) < -2 ^ 63 ∨
          2 ^ 63 ≤ (Decimal.read (digits.takeWhile Decimal.isDigit) : Int) then none
      else some ((Decimal.read (digits.takeWhile Decimal.isDigit) : Int),
        digits.dropWhile Decimal.isDigit) := by
  simp [fromChars, h]

theorem head_of_all_digits (h : ∀ b ∈ digits, Decimal.isDigit b = true) :
    digits.head? ≠ some (byte '-') := by
  intro hminus
  exact absurd (h _ (List.mem_of_head? hminus)) (by decide)

/-- What `from_chars` reads to the end is a literal in the range of its type. -/
theorem numeral_iff :
    Numeral value digits ↔ Literal value digits ∧ -2 ^ 63 ≤ value ∧ value < 2 ^ 63 := by
  constructor
  · intro h
    rw [Numeral] at h
    by_cases hminus : digits.head? = some (byte '-')
    · rcases List.head?_eq_some_iff.mp hminus with ⟨rest, rfl⟩
      rw [fromChars_of_minus, Option.ite_none_left_eq_some, Option.some.injEq,
        Prod.mk.injEq] at h
      rcases h with ⟨hrange, rfl, hend⟩
      have hall := List.dropWhile_eq_nil_iff.mp hend
      have htake := List.takeWhile_eq_self_iff.mpr hall
      rw [htake] at hrange ⊢
      exact ⟨.negative (fun hnil => hrange (Or.inl hnil)) hall, by omega, by omega⟩
    · rw [fromChars_of_not_minus hminus, Option.ite_none_left_eq_some, Option.some.injEq,
        Prod.mk.injEq] at h
      rcases h with ⟨hrange, rfl, hend⟩
      have hall := List.dropWhile_eq_nil_iff.mp hend
      have htake := List.takeWhile_eq_self_iff.mpr hall
      rw [htake] at hrange ⊢
      exact ⟨.positive (fun hnil => hrange (Or.inl hnil)) hall, by omega, by omega⟩
  · intro hspelled
    obtain ⟨hliteral, hlow, hhigh⟩ := hspelled
    rw [Numeral]
    cases hliteral with
    | positive nonempty all =>
      rw [fromChars_of_not_minus (head_of_all_digits all), List.takeWhile_eq_self_iff.mpr all,
        List.dropWhile_eq_nil_iff.mpr all, if_neg]
      intro hfails
      obtain hnil | hrange := hfails
      · exact nonempty hnil
      · omega
    | @negative rest nonempty all =>
      rw [fromChars_of_minus, List.takeWhile_eq_self_iff.mpr all,
        List.dropWhile_eq_nil_iff.mpr all, if_neg]
      intro hfails
      obtain hnil | hrange := hfails
      · exact nonempty hnil
      · omega

/-- Within the limits, a size fits the range of the numerals. -/
theorem numeral_of_size {size limit : Nat} (h : size ≤ limit) (hlimit : limit < 2 ^ 63) :
    Numeral size digits ↔ Literal size digits := by
  rw [numeral_iff]
  constructor
  · exact fun hnumeral => hnumeral.1
  · exact fun hliteral => ⟨hliteral, by omega, by omega⟩

theorem bulkStrings_iff :
    BulkStrings values later ↔ (∀ value ∈ values, value.length ≤ kMaxBulkLength) ∧
      ∃ sizes, List.Forall₂ (fun size value => Literal (List.length value) size) sizes values ∧
        later = (List.zipWith spelledBulk sizes values).flatten := by
  constructor
  · intro h
    induction h with
    | nil => exact ⟨by simp, [], .nil, rfl⟩
    | @cons value digits later values header fits rest ih =>
      rcases ih with ⟨hfits, sizes, hsizes, hlater⟩
      refine ⟨?_, digits :: sizes, .cons (numeral_iff.mp header).1 hsizes, ?_⟩
      · intro x hx
        rcases List.mem_cons.mp hx with rfl | hx
        · exact fits
        · exact hfits x hx
      · rw [hlater]
        simp [spelledBulk]
  · intro hspelled
    obtain ⟨hfits, sizes, hsizes, rfl⟩ := hspelled
    induction hsizes with
    | nil => exact .nil
    | @cons size value sizes values hsize hsizes ih =>
      have hvalue := hfits value List.mem_cons_self
      have hheader := (numeral_of_size hvalue (by decide)).mpr hsize
      have hrest := ih fun x hx => hfits x (List.mem_cons_of_mem _ hx)
      have hcons := BulkStrings.cons hheader hvalue hrest
      rw [List.zipWith_cons_cons, List.flatten_cons, spelledBulk]
      simpa using hcons

theorem request_iff_spelled : Request ⟨arguments⟩ encoded ↔ Spelled arguments encoded := by
  constructor
  · intro hrequest
    obtain ⟨header, nonempty, fits, rest⟩ := hrequest
    rcases bulkStrings_iff.mp rest with ⟨hbulk, sizes, hsizes, rfl⟩
    exact ⟨List.length_pos_iff.mpr nonempty, fits, hbulk, _, sizes, (numeral_iff.mp header).1,
      hsizes, rfl⟩
  · intro hspelled
    obtain ⟨hnonempty, hfits, hbulk, count, sizes, hcount, hsizes, rfl⟩ := hspelled
    exact .array ((numeral_of_size hfits (by decide)).mpr hcount) (List.length_pos_iff.mp hnonempty)
      hfits (bulkStrings_iff.mpr ⟨hbulk, sizes, hsizes, rfl⟩)

end Grammar

/-! ### Every access inside the input -/

namespace Checked

/-- `input[index]`, which is undefined outside the input. -/
def charAt (input : Bytes) (index : Nat) : Option UInt8 := input[index]?

/-- `input.substr(offset, count)`, with all of the count there. -/
def substr (input : Bytes) (offset count : Nat) : Option Bytes :=
  if offset + count ≤ input.length then some ((input.drop offset).take count) else none

/-- An unsigned subtraction that must not wrap. -/
def minus (a b : Nat) : Option Nat := if b ≤ a then some (a - b) else none

def parseNumber (input : Bytes) (offset : Nat) : Option NumberStatus :=
  match find input offset with
  | none => some .incomplete
  | some terminator =>
    if terminator = offset then some .error
    else do
      let number ← substr input offset (← minus terminator offset)
      match fromChars number with
      | some (value, []) => some (.complete value (terminator + 2))
      | _ => some .error

/-- The accesses are made where the source makes them: a test that has failed ends the parse before
the next one is made. -/
def parseArguments (input : Bytes) : Nat → Nat → List Bytes → Option RespParseResult
  | 0, offset, arguments => some (.complete ⟨arguments⟩ offset)
  | count + 1, offset, arguments =>
    if offset = input.length then some .incomplete
    else do
      let front ← charAt input offset
      if front ≠ byte '$' then some (.error "Protocol error: expected a bulk string")
      else do
        match ← parseNumber input (offset + 1) with
        | .incomplete => some .incomplete
        | .error => some (.error "Protocol error: invalid bulk string length")
        | .complete length dataOffset =>
          if length < 0 ∨ length > kMaxBulkLength then
            some (.error "Protocol error: invalid bulk string length")
          else if dataOffset > input.length then some .incomplete
          else do
            let bulkLength := length.toNat
            let available ← minus input.length dataOffset
            if bulkLength > available then some .incomplete
            else do
              let after ← minus available bulkLength
              if after < 2 then some .incomplete
              else do
                let first ← charAt input (dataOffset + bulkLength)
                if first ≠ byte '\r' then
                  some (.error "Protocol error: invalid bulk string terminator")
                else do
                  let second ← charAt input (dataOffset + bulkLength + 1)
                  if second ≠ byte '\n' then
                    some (.error "Protocol error: invalid bulk string terminator")
                  else do
                    let argument ← substr input dataOffset bulkLength
                    parseArguments input count (dataOffset + bulkLength + 2)
                      (arguments ++ [argument])

/-- `ParseCommand` that fails where it would look outside its input. -/
def parseCommand (input : Bytes) : Option RespParseResult :=
  if input = [] then some .incomplete
  else do
    let front ← charAt input 0
    if front ≠ byte '*' then some (.error "Protocol error: expected an array request")
    else do
      match ← parseNumber input 1 with
      | .incomplete => some .incomplete
      | .error => some (.error "Protocol error: invalid argument count")
      | .complete count offset =>
        if count ≤ 0 ∨ count > kMaxArguments then
          some (.error "Protocol error: invalid argument count")
        else parseArguments input count.toNat offset []

section Bounds
variable {input : Bytes} {offset : Nat}

theorem minus_of_le {a b : Nat} (h : b ≤ a) : minus a b = some (a - b) := if_pos h

theorem substr_of_le {count : Nat} (h : offset + count ≤ input.length) :
    substr input offset count = some ((input.drop offset).take count) := if_pos h

theorem find_bounds {terminator : Nat} (h : find input offset = some terminator) :
    offset ≤ terminator ∧ terminator + 2 ≤ input.length := by
  rw [find, Option.map_eq_some_iff] at h
  rcases h with ⟨i, hi, rfl⟩
  rcases split_of_crlfIndex hi with ⟨front, t, hsplit, rfl⟩
  have hlength := congrArg List.length hsplit
  simp only [List.length_drop, List.length_append, crlf, List.length_cons, List.length_nil]
    at hlength
  omega

theorem parseNumber_eq (input : Bytes) (offset : Nat) :
    parseNumber input offset = some (RespCodec.parseNumber input offset) := by
  rw [parseNumber, RespCodec.parseNumber]
  cases hfind : find input offset with
  | none => rfl
  | some terminator =>
    obtain ⟨hlow, hhigh⟩ := find_bounds hfind
    dsimp only
    by_cases hempty : terminator = offset
    · rw [if_pos hempty, if_pos hempty]
    · have hinside : offset + (terminator - offset) ≤ input.length := by omega
      rw [if_neg hempty, if_neg hempty, minus_of_le hlow, Option.bind_eq_bind, Option.bind_some,
        substr_of_le hinside, Option.bind_eq_bind, Option.bind_some]
      rcases fromChars ((input.drop offset).take (terminator - offset)) with
        _ | ⟨value, _ | ⟨b, rest⟩⟩ <;> rfl

theorem next_le_of_parseNumber {value : Int} {next : Nat}
    (h : RespCodec.parseNumber input offset = .complete value next) : next ≤ input.length := by
  rw [RespCodec.parseNumber] at h
  cases hfind : find input offset with
  | none =>
    rw [hfind] at h
    cases h
  | some terminator =>
    rw [hfind] at h
    dsimp only at h
    split at h
    · cases h
    · split at h
      · injection h with _ hnext
        exact hnext ▸ (find_bounds hfind).2
      · cases h

/-- The loop stays inside the input, from an offset that is at most its end. -/
theorem parseArguments_eq (hoffset : offset ≤ input.length) (count : Nat) (arguments : List Bytes) :
    parseArguments input count offset arguments =
      some (RespCodec.parseArguments input count offset arguments) := by
  induction count generalizing offset arguments with
  | zero => rfl
  | succ count ih =>
    rw [parseArguments, RespCodec.parseArguments]
    dsimp only
    by_cases hend : offset = input.length
    · rw [if_pos hend, if_pos hend]
    have hinside : offset < input.length := by omega
    have hfront : input[offset]? = some input[offset] := List.getElem?_eq_getElem hinside
    rw [if_neg hend, if_neg hend, charAt, hfront, Option.bind_eq_bind, Option.bind_some]
    by_cases hother : input[offset] ≠ byte '$'
    · rw [if_pos hother, if_pos fun heq => hother (Option.some.inj heq)]
    have hdollar := congrArg some (not_not.mp hother)
    rw [if_neg hother, if_neg (not_not.mpr hdollar), parseNumber_eq, Option.bind_eq_bind,
      Option.bind_some]
    cases hnumber : RespCodec.parseNumber input (offset + 1) with
    | incomplete => rfl
    | error => rfl
    | complete length dataOffset =>
      have hdata := next_le_of_parseNumber hnumber
      dsimp only
      by_cases hsize : length < 0 ∨ length > kMaxBulkLength
      · rw [if_pos hsize, if_pos hsize]
      rw [if_neg hsize, if_neg hsize, if_neg (Nat.not_lt.mpr hdata), minus_of_le hdata,
        Option.bind_eq_bind, Option.bind_some]
      by_cases hshort : length.toNat > input.length - dataOffset
      · rw [if_pos hshort, if_pos (Or.inr hshort)]
      rw [if_neg hshort, if_neg (not_or.mpr ⟨Nat.not_lt.mpr hdata, hshort⟩),
        minus_of_le (Nat.not_lt.mp hshort), Option.bind_eq_bind, Option.bind_some]
      by_cases hafter : input.length - dataOffset - length.toNat < 2
      · rw [if_pos hafter, if_pos hafter]
      have hfeed : dataOffset + length.toNat + 1 < input.length := by omega
      have hreturn : dataOffset + length.toNat < input.length := by omega
      have hcr : input[dataOffset + length.toNat]? = some input[dataOffset + length.toNat] :=
        List.getElem?_eq_getElem hreturn
      have hlf : input[dataOffset + length.toNat + 1]? =
          some input[dataOffset + length.toNat + 1] := List.getElem?_eq_getElem hfeed
      rw [if_neg hafter, if_neg hafter, charAt, charAt, hcr, hlf, Option.bind_some]
      by_cases hfirst : input[dataOffset + length.toNat] ≠ byte '\r'
      · rw [if_pos hfirst, if_pos (Or.inl fun heq => hfirst (Option.some.inj heq))]
      rw [if_neg hfirst, Option.bind_some]
      by_cases hsecond : input[dataOffset + length.toNat + 1] ≠ byte '\n'
      · rw [if_pos hsecond, if_pos (Or.inr fun heq => hsecond (Option.some.inj heq))]
      have hterminator : ¬(some input[dataOffset + length.toNat] ≠ some (byte '\r') ∨
          some input[dataOffset + length.toNat + 1] ≠ some (byte '\n')) :=
        not_or.mpr ⟨not_not.mpr (congrArg some (not_not.mp hfirst)),
          not_not.mpr (congrArg some (not_not.mp hsecond))⟩
      rw [if_neg hsecond, if_neg hterminator, substr_of_le hreturn.le, Option.bind_some]
      exact ih (by omega) _

theorem parseCommand_eq (input : Bytes) :
    parseCommand input = some (RespCodec.parseCommand input) := by
  cases input with
  | nil => rfl
  | cons front rest =>
    rw [parseCommand, if_neg (List.cons_ne_nil _ _), RespCodec.parseCommand]
    simp only [charAt, List.getElem?_cons_zero, parseNumber_eq, Option.bind_eq_bind,
      Option.bind_some]
    split
    · rfl
    cases hnumber : RespCodec.parseNumber (front :: rest) 1 with
    | incomplete => rfl
    | error => rfl
    | complete count offset =>
      dsimp only
      split
      · rfl
      · exact parseArguments_eq (next_le_of_parseNumber hnumber) _ _

end Bounds

end Checked

section Verdicts

/-- The parser accepts exactly the grammar, takes at least one byte, and never looks outside its
input. -/
theorem parseCommand_accepts_grammar (input : Bytes) (arguments : List Bytes) (consumed : Nat) :
    (parseCommand input = .complete ⟨arguments⟩ consumed ↔
        ∃ encoded rest, Spelled arguments encoded ∧ input = encoded ++ rest ∧
          consumed = encoded.length) ∧
      (parseCommand input = .complete ⟨arguments⟩ consumed →
        1 ≤ consumed ∧ consumed ≤ input.length ∧ (input.drop consumed).length < input.length) ∧
      Checked.parseCommand input = some (parseCommand input) := by
  refine ⟨?_, ?_, Checked.parseCommand_eq input⟩
  · rw [parseCommand_complete_iff]
    simp only [request_iff_spelled]
  · intro h
    have hshorter := length_drop_consumed h
    rcases parseCommand_complete_iff.mp h with ⟨encoded, rest, hrequest, rfl, rfl⟩
    have hpos := List.length_pos_iff.mpr hrequest.ne_nil
    refine ⟨hpos, ?_, hshorter⟩
    rw [List.length_append]
    omega

/-- A minus sign and leading zeros are accepted, and the bytes behind the command are left alone. -/
theorem parseCommand_accepts_grammar_zeros :
    ∃ encoded rest, Spelled [[]] encoded ∧ ascii "*01\r\n$-0\r\n\r\n$4\r\n" = encoded ++ rest ∧
      12 = encoded.length :=
  (parseCommand_accepts_grammar (ascii "*01\r\n$-0\r\n\r\n$4\r\n") [[]] 12).1.mp (by decide)

/-- What is waited for is not there yet: a strict part of a command is neither accepted nor
refused. -/
theorem parseCommand_of_strict_part {p s : Bytes} {command : RespCommand} {consumed : Nat}
    (h : parseCommand (p ++ s) = .complete command consumed) (hpart : p.length < consumed) :
    parseCommand p = .incomplete := by
  cases hp : parseCommand p with
  | incomplete => rfl
  | complete command' consumed' =>
    rcases parseCommand_complete_iff.mp hp with ⟨encoded, rest, hrequest, rfl, rfl⟩
    rw [List.append_assoc, parseCommand_of_request hrequest] at h
    injection h with _ hconsumed
    rw [List.length_append] at hpart
    omega
  | error what =>
    rw [parseCommand_error_append hp] at h
    cases h

/-- Later bytes change no verdict but `Incomplete`. -/
theorem parseCommand_stable (p s : Bytes) :
    (∀ command consumed, parseCommand p = .complete command consumed →
        parseCommand (p ++ s) = .complete command consumed) ∧
      (∀ what, parseCommand p = .error what → parseCommand (p ++ s) = .error what) ∧
      (parseCommand (p ++ s) ≠ parseCommand p → parseCommand p = .incomplete) ∧
      ∀ command consumed, parseCommand (p ++ s) = .complete command consumed →
        p.length < consumed → parseCommand p = .incomplete := by
  have hcomplete : ∀ command consumed, parseCommand p = .complete command consumed →
      parseCommand (p ++ s) = .complete command consumed := by
    intro command consumed h
    rcases parseCommand_complete_iff.mp h with ⟨encoded, rest, hrequest, rfl, rfl⟩
    rw [List.append_assoc]
    exact parseCommand_of_request hrequest _
  refine ⟨hcomplete, fun _ h => parseCommand_error_append h s, fun hchanged => ?_,
    fun _ _ => parseCommand_of_strict_part⟩
  cases hp : parseCommand p with
  | incomplete => rfl
  | complete command consumed => exact absurd ((hcomplete _ _ hp).trans hp.symm) hchanged
  | error what => exact absurd ((parseCommand_error_append hp s).trans hp.symm) hchanged

theorem parseCommand_stable_ping :
    parseCommand (ascii "*1\r\n$4\r\nPING\r\n" ++ ascii "*1\r") = .complete ⟨[ascii "PING"]⟩ 14 :=
  (parseCommand_stable (ascii "*1\r\n$4\r\nPING\r\n") (ascii "*1\r")).1 _ _ (by decide)

end Verdicts

end Radish.RespCodec
