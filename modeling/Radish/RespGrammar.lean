import Mathlib.Data.List.TakeWhile
import Radish.RespCodec
import Radish.Library.Incremental

/-!
# The grammar of requests

What `ParseCommand` accepts: an array header and bulk strings, with numerals as `from_chars`
reads them. The parser is an incremental decoder, and reads back what `EncodeCommand` writes.
-/

namespace Radish.RespCodec
set_option autoImplicit false

def Numeral (value : Int) (digits : Bytes) : Prop := fromChars digits = some (value, [])

inductive BulkStrings : List Bytes → Bytes → Prop where
  | nil : BulkStrings [] []
  | cons {value digits later : Bytes} {values : List Bytes}
      (header : Numeral value.length digits) (fits : value.length ≤ kMaxBulkLength)
      (rest : BulkStrings values later) :
      BulkStrings (value :: values)
        (byte '$' :: (digits ++ (crlf ++ (value ++ (crlf ++ later)))))

inductive Request : RespCommand → Bytes → Prop where
  | array {command : RespCommand} {digits later : Bytes}
      (header : Numeral command.arguments.length digits) (nonempty : command.arguments ≠ [])
      (fits : command.arguments.length ≤ kMaxArguments)
      (rest : BulkStrings command.arguments later) :
      Request command (byte '*' :: (digits ++ (crlf ++ later)))

section Numerals
variable {digits s : Bytes} {value : Int} {i offset : Nat}

theorem crlfIndex_cons_of_ne {a : UInt8} (h : a ≠ byte '\r') (s : Bytes) :
    crlfIndex (a :: s) = (crlfIndex s).map (· + 1) := by
  cases s with
  | nil => rfl
  | cons b s => simp [crlfIndex, h]

theorem crlfIndex_append_crlf (h : byte '\r' ∉ digits) (t : Bytes) :
    crlfIndex (digits ++ (crlf ++ t)) = some digits.length := by
  induction digits with
  | nil => simp [crlf, crlfIndex]
  | cons a digits ih =>
    rw [List.mem_cons, not_or] at h
    rw [List.cons_append, crlfIndex_cons_of_ne (Ne.symm h.1), ih h.2]
    rfl

theorem split_of_crlfIndex (h : crlfIndex s = some i) :
    ∃ front t, s = front ++ (crlf ++ t) ∧ front.length = i := by
  induction s using crlfIndex.induct generalizing i with
  | case1 a b rest hab =>
    rw [crlfIndex, if_pos hab] at h
    injection h with h
    exact ⟨[], rest, by simp [crlf, hab], h⟩
  | case2 a b rest hab ih =>
    rw [crlfIndex, if_neg hab, Option.map_eq_some_iff] at h
    rcases h with ⟨j, hj, rfl⟩
    rcases ih hj with ⟨front, t, hsplit, hlength⟩
    exact ⟨a :: front, t, by rw [hsplit]; rfl, by simp [hlength]⟩
  | case3 s hs =>
    rw [crlfIndex.eq_2 s hs] at h
    cases h

theorem crlfIndex_append_right (h : crlfIndex s = some i) (t : Bytes) :
    crlfIndex (s ++ t) = some i := by
  induction s using crlfIndex.induct generalizing i with
  | case1 a b rest hab =>
    rw [crlfIndex, if_pos hab] at h
    simpa [crlfIndex, hab] using h
  | case2 a b rest hab ih =>
    rw [crlfIndex, if_neg hab, Option.map_eq_some_iff] at h
    rcases h with ⟨j, hj, rfl⟩
    rw [List.cons_append, List.cons_append, crlfIndex, if_neg hab, ← List.cons_append, ih hj]
    rfl
  | case3 s hs =>
    rw [crlfIndex.eq_2 s hs] at h
    cases h

theorem Numeral.ne_nil (h : Numeral value digits) : digits ≠ [] := by
  rintro rfl
  cases h

/-- A numeral is an optional sign and digits. -/
theorem Numeral.eq_or_isDigit (h : Numeral value digits) {b : UInt8} (hb : b ∈ digits) :
    b = byte '-' ∨ Decimal.isDigit b = true := by
  have htail : ∀ rest : Bytes, rest.dropWhile Decimal.isDigit = [] → b ∈ rest →
      Decimal.isDigit b = true := fun rest hrest => List.dropWhile_eq_nil_iff.mp hrest b
  rw [Numeral, fromChars] at h
  rw [Option.ite_none_left_eq_some, Option.some.injEq, Prod.mk.injEq] at h
  have hrest := h.2.2
  cases digits with
  | nil => cases hb
  | cons a digits =>
    by_cases hminus : a = byte '-'
    · rcases List.mem_cons.mp hb with rfl | hb
      · exact Or.inl hminus
      · exact Or.inr (htail _ (by simpa [hminus] using hrest) hb)
    · exact Or.inr (htail _ (by simpa [hminus] using hrest) hb)

theorem Numeral.cr_not_mem (h : Numeral value digits) : byte '\r' ∉ digits := by
  intro hmem
  rcases h.eq_or_isDigit hmem with hcr | hcr <;> exact absurd hcr (by decide)

theorem numeral_print {n : Nat} (h : n < 2 ^ 63) : Numeral n (Decimal.print n) := by
  have hall : ∀ b ∈ Decimal.print n, Decimal.isDigit b = true :=
    fun b => Decimal.isDigit_of_mem_print
  have htake : (Decimal.print n).takeWhile Decimal.isDigit = Decimal.print n :=
    List.takeWhile_eq_self_iff.mpr hall
  have hdrop : (Decimal.print n).dropWhile Decimal.isDigit = [] := List.dropWhile_eq_nil_iff.mpr hall
  have hfront : ¬(Decimal.print n).head? = some (byte '-') := by
    intro hminus
    exact absurd (hall _ (List.mem_of_head? hminus)) (by decide)
  have hvalue : ¬((n : Int) < -2 ^ 63 ∨ 2 ^ 63 ≤ (n : Int)) := by omega
  rw [Numeral, fromChars]
  simp only [hfront, decide_false, Bool.false_eq_true, if_false, htake, hdrop, Decimal.read_print,
    Decimal.print_ne_nil, false_or, hvalue]

end Numerals

section Parsing
variable {input digits value t : Bytes} {number : Int} {offset count : Nat} {arguments : List Bytes}

theorem drop_of_drop_eq {front : Bytes} (h : input.drop offset = front ++ t) (n : Nat) :
    input.drop (offset + (front.length + n)) = t.drop n := by
  rw [← List.drop_drop, h, List.drop_length_add_append]

theorem drop_append_of_drop_eq {front : Bytes} (h : input.drop offset = front) (hfront : front ≠ [])
    (s : Bytes) : (input ++ s).drop offset = front ++ s := by
  have hlength := congrArg List.length h
  have hpos := List.length_pos_iff.mpr hfront
  rw [List.length_drop] at hlength
  rw [List.drop_append_of_le_length (by omega), h]

theorem drop_eq_crlf_append {n : Nat} (hcr : t[n]? = some (byte '\r'))
    (hlf : t[n + 1]? = some (byte '\n')) : t.drop n = crlf ++ t.drop (n + 2) := by
  rcases List.getElem?_eq_some_iff.mp hcr with ⟨hn, hcr⟩
  rcases List.getElem?_eq_some_iff.mp hlf with ⟨hn', hlf⟩
  rw [List.drop_eq_getElem_cons hn, hcr, List.drop_eq_getElem_cons hn', hlf]
  rfl

theorem parseNumber_of_drop (hnumber : Numeral number digits)
    (h : input.drop offset = digits ++ (crlf ++ t)) :
    parseNumber input offset = .complete number (offset + digits.length + 2) := by
  have hpos := List.length_pos_iff.mpr hnumber.ne_nil
  rw [parseNumber, find, h, crlfIndex_append_crlf hnumber.cr_not_mem]
  dsimp only [Option.map_some]
  rw [if_neg (by omega), Nat.add_sub_cancel_left, List.take_left]
  simp only [show fromChars digits = some (number, []) from hnumber]

theorem parseNumber_refused {front : Bytes} (hsplit : input.drop offset = front ++ (crlf ++ t))
    (hindex : crlfIndex (front ++ (crlf ++ t)) = some front.length)
    (hnumber : ¬∃ number, Numeral number front) : parseNumber input offset = .error := by
  rw [parseNumber, find, hsplit, hindex]
  dsimp only [Option.map_some]
  split
  · rfl
  · rw [Nat.add_sub_cancel_left, List.take_left]
    split
    · rename_i number hvalue
      exact absurd ⟨number, hvalue⟩ hnumber
    · rfl

/-- A number is read to its end, not all there yet, or refused for good. -/
theorem parseNumber_cases (input : Bytes) (offset : Nat) :
    (∃ number digits t, Numeral number digits ∧ input.drop offset = digits ++ (crlf ++ t)) ∨
      parseNumber input offset = .incomplete ∨
      ∀ s, parseNumber (input ++ s) offset = .error := by
  cases hindex : crlfIndex (input.drop offset) with
  | none =>
    right
    left
    rw [parseNumber, find, hindex]
    rfl
  | some i =>
    rcases split_of_crlfIndex hindex with ⟨digits, t, hsplit, rfl⟩
    by_cases hnumber : ∃ number, Numeral number digits
    · rcases hnumber with ⟨number, hnumber⟩
      exact Or.inl ⟨number, digits, t, hnumber, hsplit⟩
    · right
      right
      intro s
      have hdrop := drop_append_of_drop_eq hsplit (by simp [crlf]) s
      have hindex' := crlfIndex_append_right hindex s
      rw [hsplit, List.append_assoc, List.append_assoc] at hindex'
      rw [List.append_assoc, List.append_assoc] at hdrop
      exact parseNumber_refused hdrop hindex' hnumber

/-- The loop after the header of a bulk string has been read. -/
theorem parseArguments_number (hnumber : Numeral number digits)
    (h : input.drop offset = byte '$' :: (digits ++ (crlf ++ t))) (count : Nat)
    (arguments : List Bytes) :
    parseArguments input (count + 1) offset arguments =
      if number < 0 ∨ number > kMaxBulkLength then
        .error "Protocol error: invalid bulk string length"
      else if t.length < number.toNat + 2 then .incomplete
      else if t[number.toNat]? ≠ some (byte '\r') ∨ t[number.toNat + 1]? ≠ some (byte '\n') then
        .error "Protocol error: invalid bulk string terminator"
      else
        parseArguments input count (offset + (digits.length + number.toNat + 5))
          (arguments ++ [t.take number.toNat]) := by
  have hlength := congrArg List.length h
  have hfront : input[offset]? = some (byte '$') := by
    rw [← List.head?_drop, h]
    rfl
  have hdigits : input.drop (offset + 1) = digits ++ (crlf ++ t) := by
    rw [← List.drop_drop, h]
    rfl
  have hdata : input.drop (offset + 1 + digits.length + 2) = t := by
    have hdrop := drop_of_drop_eq hdigits 2
    rw [← Nat.add_assoc] at hdrop
    exact hdrop
  have hbyte : ∀ n, input[offset + 1 + digits.length + 2 + n]? = t[n]? := by
    intro n
    rw [← List.getElem?_drop, hdata]
  have hnext : offset + 1 + digits.length + 2 + number.toNat + 2 =
      offset + (digits.length + number.toNat + 5) := by omega
  simp only [List.length_drop, List.length_cons, List.length_append, crlf, List.length_nil] at hlength
  rw [parseArguments, if_neg (by omega), if_neg (by simp [hfront]),
    parseNumber_of_drop hnumber hdigits]
  dsimp only
  split
  · rfl
  · by_cases hshort : t.length < number.toNat + 2
    · rw [if_pos hshort]
      split
      · rfl
      · rw [if_pos (by omega)]
    · rw [if_neg hshort, if_neg (by omega), if_neg (by omega), Nat.add_assoc _ number.toNat 1,
        hbyte, hbyte, hdata, hnext]

/-- One pass of the loop over a bulk string. -/
theorem parseArguments_bulk (hheader : Numeral value.length digits)
    (hfits : value.length ≤ kMaxBulkLength)
    (h : input.drop offset = byte '$' :: (digits ++ (crlf ++ (value ++ (crlf ++ t))))) :
    parseArguments input (count + 1) offset arguments =
      parseArguments input count (offset + (digits.length + value.length + 5))
        (arguments ++ [value]) := by
  have hcr : (value ++ (crlf ++ t))[value.length]? = some (byte '\r') := by simp [crlf]
  have hlf : (value ++ (crlf ++ t))[value.length + 1]? = some (byte '\n') := by simp [crlf]
  have hlong : ¬(value ++ (crlf ++ t)).length < value.length + 2 := by simp [crlf]
  rw [parseArguments_number hheader h, if_neg (by omega), Int.toNat_natCast, if_neg hlong,
    if_neg (by simp [hcr, hlf]), List.take_left]

/-- Once its length is known, a bulk string is taken, not all there yet, or refused for good. -/
theorem parseArguments_number_cases (hnumber : Numeral number digits)
    (h : input.drop offset = byte '$' :: (digits ++ (crlf ++ t))) (count : Nat)
    (arguments : List Bytes) :
    (∃ value after : Bytes, Numeral value.length digits ∧ value.length ≤ kMaxBulkLength ∧
        t = value ++ (crlf ++ after)) ∨
      parseArguments input (count + 1) offset arguments = .incomplete ∨
      ∃ what, ∀ s, parseArguments (input ++ s) (count + 1) offset arguments = .error what := by
  have hstep := parseArguments_number hnumber h count arguments
  have hmore : ∀ s, (input ++ s).drop offset = byte '$' :: (digits ++ (crlf ++ (t ++ s))) := by
    intro s
    rw [drop_append_of_drop_eq h (by simp)]
    simp
  by_cases hbounds : number < 0 ∨ number > kMaxBulkLength
  · refine Or.inr (Or.inr ⟨"Protocol error: invalid bulk string length", fun s => ?_⟩)
    rw [parseArguments_number hnumber (hmore s), if_pos hbounds]
  rw [if_neg hbounds] at hstep
  by_cases hshort : t.length < number.toNat + 2
  · rw [if_pos hshort] at hstep
    exact Or.inr (Or.inl hstep)
  by_cases hterminator : t[number.toNat]? ≠ some (byte '\r') ∨
      t[number.toNat + 1]? ≠ some (byte '\n')
  · refine Or.inr (Or.inr ⟨"Protocol error: invalid bulk string terminator", fun s => ?_⟩)
    rw [parseArguments_number hnumber (hmore s), if_neg hbounds,
      if_neg (by rw [List.length_append]; omega), List.getElem?_append_left (by omega),
      List.getElem?_append_left (by omega), if_pos hterminator]
  · left
    rw [not_or, not_not, not_not] at hterminator
    have hvalue : (t.take number.toNat).length = number.toNat := by
      rw [List.length_take]
      omega
    have hend := drop_eq_crlf_append hterminator.1 hterminator.2
    refine ⟨t.take number.toNat, t.drop (number.toNat + 2), ?_, by omega, ?_⟩
    · rw [hvalue, Int.toNat_of_nonneg (by omega)]
      exact hnumber
    · rw [← hend, List.take_append_drop]

/-- One pass of the loop: a bulk string is taken, not all there yet, or refused for good. -/
theorem parseArguments_cases (hoffset : offset ≤ input.length) (count : Nat)
    (arguments : List Bytes) :
    (∃ value digits t : Bytes, Numeral value.length digits ∧ value.length ≤ kMaxBulkLength ∧
        input.drop offset = byte '$' :: (digits ++ (crlf ++ (value ++ (crlf ++ t))))) ∨
      parseArguments input (count + 1) offset arguments = .incomplete ∨
      ∃ what, ∀ s, parseArguments (input ++ s) (count + 1) offset arguments = .error what := by
  rcases hrest : input.drop offset with _ | ⟨front, rest⟩
  · have hend : offset = input.length := by
      have hlength := congrArg List.length hrest
      rw [List.length_drop, List.length_nil] at hlength
      omega
    exact Or.inr (Or.inl (by rw [parseArguments, if_pos hend]))
  have hlength := congrArg List.length hrest
  rw [List.length_drop, List.length_cons] at hlength
  have hopen : ∀ s, offset ≠ (input ++ s).length := by
    intro s
    rw [List.length_append]
    omega
  have hfront : ∀ s, (input ++ s)[offset]? = some front := by
    intro s
    rw [← List.head?_drop, drop_append_of_drop_eq hrest (by simp)]
    rfl
  by_cases hdollar : front = byte '$'
  · subst hdollar
    have hdigits : input.drop (offset + 1) = rest := by
      rw [← List.drop_drop, hrest]
      rfl
    rcases parseNumber_cases input (offset + 1) with
      ⟨number, digits, t, hnumber, hsplit⟩ | hwait | hfail
    · rw [hdigits] at hsplit
      subst hsplit
      rcases parseArguments_number_cases hnumber hrest count arguments with
        ⟨value, after, hheader, hfits, rfl⟩ | hrefused
      · exact Or.inl ⟨value, digits, after, hheader, hfits, rfl⟩
      · exact Or.inr hrefused
    · refine Or.inr (Or.inl ?_)
      rw [parseArguments, if_neg (by simpa using hopen []), if_neg (by simpa using hfront []), hwait]
    · refine Or.inr (Or.inr ⟨"Protocol error: invalid bulk string length", fun s => ?_⟩)
      rw [parseArguments, if_neg (hopen s), if_neg (by simp [hfront s]), hfail s]
  · refine Or.inr (Or.inr ⟨"Protocol error: expected a bulk string", fun s => ?_⟩)
    rw [parseArguments, if_neg (hopen s), if_pos (by simp [hfront s, hdollar])]

theorem drop_after_bulk
    (h : input.drop offset = byte '$' :: (digits ++ (crlf ++ (value ++ (crlf ++ t))))) :
    input.drop (offset + (digits.length + value.length + 5)) = t ∧
      offset + (digits.length + value.length + 5) ≤ input.length := by
  have hlength := congrArg List.length h
  have hfront : input.drop offset =
      (byte '$' :: (digits ++ (crlf ++ (value ++ crlf)))) ++ t := by
    rw [h]
    simp
  have hafter := drop_of_drop_eq hfront 0
  simp only [List.length_drop, List.length_append, List.length_cons, crlf, List.length_nil]
    at hlength hafter
  rw [List.drop_zero] at hafter
  refine ⟨?_, by omega⟩
  rw [← hafter]
  congr 1
  omega

theorem parseArguments_of_bulkStrings {values : List Bytes} {encoded : Bytes}
    (h : BulkStrings values encoded) (hdrop : input.drop offset = encoded ++ t)
    (arguments : List Bytes) :
    parseArguments input values.length offset arguments =
      .complete ⟨arguments ++ values⟩ (offset + encoded.length) := by
  induction h generalizing offset arguments with
  | nil => simp [parseArguments]
  | @cons value digits later values header fits rest ih =>
    have hsplit : input.drop offset =
        byte '$' :: (digits ++ (crlf ++ (value ++ (crlf ++ (later ++ t))))) := by
      rw [hdrop]
      simp
    rw [List.length_cons, parseArguments_bulk header fits hsplit, ih (drop_after_bulk hsplit).1]
    congr 1
    · simp
    · simp [crlf]
      omega

theorem bulkStrings_of_parseArguments {command : RespCommand} {consumed : Nat}
    (hoffset : offset ≤ input.length)
    (h : parseArguments input count offset arguments = .complete command consumed) :
    ∃ values encoded t, BulkStrings values encoded ∧ values.length = count ∧
      input.drop offset = encoded ++ t ∧ command.arguments = arguments ++ values ∧
      consumed = offset + encoded.length := by
  induction count generalizing offset arguments with
  | zero =>
    rw [parseArguments] at h
    injection h with hcommand hconsumed
    exact ⟨[], [], input.drop offset, .nil, rfl, rfl, by simp [← hcommand], by simp [hconsumed]⟩
  | succ count ih =>
    rcases parseArguments_cases hoffset count arguments with
      ⟨value, digits, t, hheader, hfits, hsplit⟩ | hwait | ⟨what, hfail⟩
    · rw [parseArguments_bulk hheader hfits hsplit] at h
      rcases drop_after_bulk hsplit with ⟨hafter, hnext⟩
      rcases ih hnext h with ⟨values, encoded, t', hvalues, hcount, hrest, hcommand, hconsumed⟩
      refine ⟨value :: values, byte '$' :: (digits ++ (crlf ++ (value ++ (crlf ++ encoded)))), t',
        .cons hheader hfits hvalues, by simp [hcount], ?_, by simp [hcommand], ?_⟩
      · rw [hsplit, ← hafter, hrest]
        simp
      · rw [hconsumed]
        simp [crlf]
        omega
    · rw [hwait] at h
      cases h
    · have hfail' := hfail []
      rw [List.append_nil, h] at hfail'
      cases hfail'

theorem parseArguments_error_append {what : String} (hoffset : offset ≤ input.length)
    (h : parseArguments input count offset arguments = .error what) (s : Bytes) :
    parseArguments (input ++ s) count offset arguments = .error what := by
  induction count generalizing offset arguments with
  | zero =>
    rw [parseArguments] at h
    cases h
  | succ count ih =>
    rcases parseArguments_cases hoffset count arguments with
      ⟨value, digits, t, hheader, hfits, hsplit⟩ | hwait | ⟨what', hfail⟩
    · have hmore : (input ++ s).drop offset =
          byte '$' :: (digits ++ (crlf ++ (value ++ (crlf ++ (t ++ s))))) := by
        rw [drop_append_of_drop_eq hsplit (by simp)]
        simp
      rw [parseArguments_bulk hheader hfits hsplit] at h
      rw [parseArguments_bulk hheader hfits hmore]
      exact ih (drop_after_bulk hsplit).2 h
    · rw [hwait] at h
      cases h
    · have hfail' := hfail []
      rw [List.append_nil, h] at hfail'
      rw [hfail s, ← hfail']

/-- The parser after a valid array header has been read. -/
theorem parseCommand_number (hnumber : Numeral number digits)
    (hbounds : ¬(number ≤ 0 ∨ number > kMaxArguments)) (t : Bytes) :
    parseCommand (byte '*' :: (digits ++ (crlf ++ t))) =
      parseArguments (byte '*' :: (digits ++ (crlf ++ t))) number.toNat (1 + digits.length + 2) [] := by
  have hdrop : (byte '*' :: (digits ++ (crlf ++ t))).drop 1 = digits ++ (crlf ++ t) := rfl
  rw [parseCommand, if_neg (not_not.mpr rfl), parseNumber_of_drop hnumber hdrop]
  dsimp only
  rw [if_neg hbounds]

theorem drop_after_header (digits t : Bytes) :
    (byte '*' :: (digits ++ (crlf ++ t))).drop (1 + digits.length + 2) = t ∧
      1 + digits.length + 2 ≤ (byte '*' :: (digits ++ (crlf ++ t))).length := by
  have hdrop : (byte '*' :: (digits ++ (crlf ++ t))).drop 1 = digits ++ (crlf ++ t) := rfl
  have hafter := drop_of_drop_eq hdrop 2
  rw [← Nat.add_assoc] at hafter
  refine ⟨hafter, ?_⟩
  simp only [List.length_cons, List.length_append, crlf, List.length_nil]
  omega

/-- The array header is read, not all there yet, or refused for good. -/
theorem parseCommand_cases (input : Bytes) :
    (∃ number digits t, Numeral number digits ∧ ¬(number ≤ 0 ∨ number > kMaxArguments) ∧
        input = byte '*' :: (digits ++ (crlf ++ t))) ∨
      parseCommand input = .incomplete ∨
      ∃ what, ∀ s, parseCommand (input ++ s) = .error what := by
  rcases input with _ | ⟨front, rest⟩
  · exact Or.inr (Or.inl rfl)
  by_cases hstar : front = byte '*'
  · subst hstar
    rcases parseNumber_cases (byte '*' :: rest) 1 with
      ⟨number, digits, t, hnumber, hsplit⟩ | hwait | hfail
    · have hrest : rest = digits ++ (crlf ++ t) := hsplit
      subst hrest
      by_cases hbounds : number ≤ 0 ∨ number > kMaxArguments
      · refine Or.inr (Or.inr ⟨"Protocol error: invalid argument count", fun s => ?_⟩)
        have hmore := drop_append_of_drop_eq hsplit (by simp [crlf]) s
        rw [List.append_assoc, List.append_assoc] at hmore
        rw [List.cons_append] at hmore ⊢
        rw [parseCommand, if_neg (not_not.mpr rfl), parseNumber_of_drop hnumber hmore]
        dsimp only
        rw [if_pos hbounds]
      · exact Or.inl ⟨number, digits, t, hnumber, hbounds, rfl⟩
    · refine Or.inr (Or.inl ?_)
      rw [parseCommand, if_neg (not_not.mpr rfl), hwait]
    · refine Or.inr (Or.inr ⟨"Protocol error: invalid argument count", fun s => ?_⟩)
      have hfail' := hfail s
      rw [List.cons_append] at hfail' ⊢
      rw [parseCommand, if_neg (not_not.mpr rfl), hfail']
  · refine Or.inr (Or.inr ⟨"Protocol error: expected an array request", fun s => ?_⟩)
    rw [List.cons_append, parseCommand, if_pos hstar]

theorem request_of_parseCommand {command : RespCommand} {consumed : Nat}
    (h : parseCommand input = .complete command consumed) :
    ∃ encoded t, Request command encoded ∧ input = encoded ++ t ∧ consumed = encoded.length := by
  rcases parseCommand_cases input with
    ⟨number, digits, t, hnumber, hbounds, rfl⟩ | hwait | ⟨what, hfail⟩
  · rw [parseCommand_number hnumber hbounds] at h
    rcases drop_after_header digits t with ⟨hafter, hoffset⟩
    rcases bulkStrings_of_parseArguments hoffset h with
      ⟨values, encoded, t', hvalues, hcount, hrest, hcommand, hconsumed⟩
    rw [List.nil_append] at hcommand
    subst hcommand
    refine ⟨byte '*' :: (digits ++ (crlf ++ encoded)), t', .array ?_ ?_ ?_ hvalues, ?_, ?_⟩
    · rw [hcount, Int.toNat_of_nonneg (by omega)]
      exact hnumber
    · intro hnil
      rw [hnil, List.length_nil] at hcount
      omega
    · omega
    · rw [← hafter, hrest]
      simp
    · rw [hconsumed]
      simp [crlf]
      omega
  · rw [hwait] at h
    cases h
  · have hfail' := hfail []
    rw [List.append_nil, h] at hfail'
    cases hfail'

theorem parseCommand_of_request {command : RespCommand} {encoded : Bytes}
    (h : Request command encoded) (t : Bytes) :
    parseCommand (encoded ++ t) = .complete command encoded.length := by
  cases h with
  | @array digits later header nonempty fits rest =>
    have hpos := List.length_pos_iff.mpr nonempty
    have hsplit : (byte '*' :: (digits ++ (crlf ++ later))) ++ t =
        byte '*' :: (digits ++ (crlf ++ (later ++ t))) := by simp
    rw [hsplit, parseCommand_number header (by omega), Int.toNat_natCast,
      parseArguments_of_bulkStrings rest (drop_after_header digits (later ++ t)).1]
    congr 1
    simp [crlf]
    omega

/-- The parser accepts a request at the front of its input, and nothing else. -/
theorem parseCommand_complete_iff {command : RespCommand} {consumed : Nat} :
    parseCommand input = .complete command consumed ↔
      ∃ encoded t, Request command encoded ∧ input = encoded ++ t ∧ consumed = encoded.length := by
  constructor
  · exact request_of_parseCommand
  · rintro ⟨encoded, t, hrequest, rfl, rfl⟩
    exact parseCommand_of_request hrequest t

theorem parseCommand_error_append {what : String} (h : parseCommand input = .error what)
    (s : Bytes) : parseCommand (input ++ s) = .error what := by
  rcases parseCommand_cases input with
    ⟨number, digits, t, hnumber, hbounds, rfl⟩ | hwait | ⟨what', hfail⟩
  · have hmore : (byte '*' :: (digits ++ (crlf ++ t))) ++ s =
        byte '*' :: (digits ++ (crlf ++ (t ++ s))) := by simp
    rw [parseCommand_number hnumber hbounds] at h
    have herror := parseArguments_error_append (drop_after_header digits t).2 h s
    rw [hmore] at herror ⊢
    rw [parseCommand_number hnumber hbounds, herror]
  · rw [hwait] at h
    cases h
  · have hfail' := hfail []
    rw [List.append_nil, h] at hfail'
    rw [hfail s, ← hfail']

end Parsing

section Decoding
variable {s t encoded : Bytes} {command : RespCommand} {what : String}

theorem Request.ne_nil (h : Request command encoded) : encoded ≠ [] := by
  cases h
  exact List.cons_ne_nil _ _

theorem length_drop_consumed {consumed : Nat} (h : parseCommand s = .complete command consumed) :
    (s.drop consumed).length < s.length := by
  rcases parseCommand_complete_iff.mp h with ⟨encoded, t, hrequest, rfl, rfl⟩
  have hpos := List.length_pos_iff.mpr hrequest.ne_nil
  rw [List.drop_left, List.length_append]
  omega

/-- `ParseCommand` as `Process` uses it: what was consumed is erased from the input. -/
def commandStep (input : Bytes) : Incremental.Verdict UInt8 RespCommand String :=
  match parseCommand input with
  | .complete command consumed => .complete command (input.drop consumed)
  | .incomplete => .incomplete
  | .error what => .failed what

theorem commandStep_complete_iff :
    commandStep s = .complete command t ↔ ∃ encoded, Request command encoded ∧ s = encoded ++ t := by
  constructor
  · intro h
    cases hparse : parseCommand s with
    | complete command' consumed =>
      rcases parseCommand_complete_iff.mp hparse with ⟨encoded, t', hrequest, rfl, rfl⟩
      rw [commandStep, hparse] at h
      injection h with hcommand hrest
      rw [List.drop_left] at hrest
      subst hcommand hrest
      exact ⟨encoded, hrequest, rfl⟩
    | incomplete =>
      rw [commandStep, hparse] at h
      cases h
    | error what =>
      rw [commandStep, hparse] at h
      cases h
  · rintro ⟨encoded, hrequest, rfl⟩
    simp [commandStep, parseCommand_of_request hrequest]

theorem commandStep_failed_iff : commandStep s = .failed what ↔ parseCommand s = .error what := by
  unfold commandStep
  cases parseCommand s <;> simp

theorem commandStep_incomplete_iff : commandStep s = .incomplete ↔ parseCommand s = .incomplete := by
  unfold commandStep
  cases parseCommand s <;> simp

/-- Later bytes change no verdict but `Incomplete`. -/
def commandDecoder : Incremental.Decoder UInt8 RespCommand String where
  step := commandStep
  shrinks h := by
    rcases commandStep_complete_iff.mp h with ⟨encoded, hrequest, rfl⟩
    have hpos := List.length_pos_iff.mpr hrequest.ne_nil
    rw [List.length_append]
    omega
  complete_append t h := by
    rcases commandStep_complete_iff.mp h with ⟨encoded, hrequest, rfl⟩
    exact commandStep_complete_iff.mpr ⟨encoded, hrequest, List.append_assoc _ _ _⟩
  failed_append t h :=
    commandStep_failed_iff.mpr (parseCommand_error_append (commandStep_failed_iff.mp h) t)

/-- The commands `EncodeCommand` is meant for. -/
structure Sendable (command : RespCommand) : Prop where
  nonempty : command.arguments ≠ []
  fits : command.arguments.length ≤ kMaxArguments
  bulk_fits : ∀ argument ∈ command.arguments, argument.length ≤ kMaxBulkLength

theorem bulkStrings_flatMap_bulk {values : List Bytes}
    (h : ∀ value ∈ values, value.length ≤ kMaxBulkLength) :
    BulkStrings values (values.flatMap bulk) := by
  induction values with
  | nil => exact .nil
  | cons value values ih =>
    have hvalue := h value List.mem_cons_self
    have hheader : Numeral value.length (Decimal.print value.length) :=
      numeral_print (by unfold kMaxBulkLength at hvalue; omega)
    have hrest := ih fun x hx => h x (List.mem_cons_of_mem _ hx)
    have hcons := BulkStrings.cons hheader hvalue hrest
    rw [List.flatMap_cons, bulk]
    simpa using hcons

theorem Sendable.request (h : Sendable command) :
    Request command (encodeCommand command.arguments) := by
  have hfits := h.fits
  refine .array (numeral_print ?_) h.nonempty h.fits (bulkStrings_flatMap_bulk h.bulk_fits)
  unfold kMaxArguments at hfits
  omega

/-- The round trip between the client's encoder and the server's parser. -/
theorem commandDecoder_reads :
    Incremental.Reads commandDecoder (fun command => encodeCommand command.arguments) Sendable :=
  fun _ _ h => commandStep_complete_iff.mpr ⟨_, h.request, rfl⟩

end Decoding

end Radish.RespCodec
