import Radish.RespReply

/-!
# RespConnection

The reply reader of the benchmark client, on the bytes received so far. `none` is an exception, a
wait for bytes that are not there, or undefined behaviour.
-/

namespace Radish.RespConnection
set_option autoImplicit false

open RespCodec

/-- The line is cut at the first line feed, which need not belong to the CRLF waited for, and loses
the byte before it. -/
def readLine (buffer : Bytes) : Option (Bytes × Bytes) :=
  match crlfIndex buffer with
  | none => none
  | some _ =>
    let line := buffer.takeWhile (· ≠ byte '\n')
    if line = [] then none
    else some (line.dropLast, (buffer.dropWhile (· ≠ byte '\n')).tail)

def consumeBytes (size : Nat) (buffer : Bytes) : Option Bytes :=
  if buffer.length < size then none else some (buffer.drop size)

/-- `std::isspace` in the C locale. -/
def isSpace (b : UInt8) : Bool := b = byte ' ' ∨ byte '\t' ≤ b ∧ b ≤ byte '\r'

/-- `std::stoll`, which skips white space and stops at the first byte that is not a digit. -/
def stoll (text : Bytes) : Option Int :=
  let text := text.dropWhile isSpace
  let negative : Bool := text.head? = some (byte '-')
  let digits := if negative ∨ text.head? = some (byte '+') then text.tail else text
  let magnitude : Int := Decimal.read (digits.takeWhile Decimal.isDigit)
  let value := if negative then -magnitude else magnitude
  if digits.takeWhile Decimal.isDigit = [] ∨ value < -2 ^ 63 ∨ 2 ^ 63 ≤ value then none
  else some value

/-- The loop over the elements of an array or a map. -/
def readElements (read : Bytes → Option (Bool × Bytes)) : Nat → Bool → Bytes → Option (Bool × Bytes)
  | 0, success, buffer => some (success, buffer)
  | count + 1, success, buffer => do
    let (response, buffer) ← read buffer
    readElements read count (response && success) buffer

/-- `levels` is 33 less the depth: a reply nested deeper is an exception. -/
def readNested : Nat → Bytes → Option (Bool × Bytes)
  | 0, _ => none
  | levels + 1, buffer => do
    let (line, buffer) ← readLine buffer
    match line with
    | [] => none
    | front :: text =>
      if front = byte '-' then some (false, buffer)
      else if front = byte '+' ∨ front = byte ':' ∨ front = byte '_' ∨ front = byte '#' then
        some (true, buffer)
      else if front = byte '$' then do
        let length ← stoll text
        if length ≥ 0 then do
          let buffer ← consumeBytes (length.toNat + 2) buffer
          some (true, buffer)
        else some (true, buffer)
      else if front = byte '*' ∨ front = byte '%' then do
        let count ← stoll text
        if count < 0 then some (true, buffer)
        else
          let elements := if front = byte '%' then count * 2 else count
          -- the product is a `long long`
          if elements ≥ 2 ^ 63 then none
          else readElements (readNested levels) elements.toNat true buffer
      else none

def readResponse (buffer : Bytes) : Option (Bool × Bytes) := readNested 33 buffer

/-- The loop of `ExecutePipeline` over the responses. -/
def readResponses : Nat → Bytes → Option (List Bool × Bytes)
  | 0, buffer => some ([], buffer)
  | count + 1, buffer => do
    let (response, buffer) ← readResponse buffer
    let (responses, buffer) ← readResponses count buffer
    some (response :: responses, buffer)

section Lines
variable {text : Bytes}

theorem isText_print (n : Nat) : Reply.IsText (Decimal.print n) := by
  constructor
  · intro hmem
    exact absurd (Decimal.isDigit_of_mem_print hmem) (by decide)
  · intro hmem
    exact absurd (Decimal.isDigit_of_mem_print hmem) (by decide)

/-- A line of the server is read to its CRLF. -/
theorem readLine_append (h : Reply.IsText text) (t : Bytes) :
    readLine (text ++ (crlf ++ t)) = some (text, t) := by
  have hfeed : ∀ b ∈ text ++ [byte '\r'], decide (b ≠ byte '\n') = true := by
    intro b hb
    apply decide_eq_true
    intro hfeed
    obtain hb | hb := List.mem_append.mp hb
    · exact h.2 (hfeed ▸ hb)
    · rw [List.mem_singleton.mp hb] at hfeed
      exact absurd hfeed (by decide)
  have hsplit : text ++ (crlf ++ t) = (text ++ [byte '\r']) ++ byte '\n' :: t := by
    simp [crlf]
  have htake : (text ++ (crlf ++ t)).takeWhile (· ≠ byte '\n') = text ++ [byte '\r'] := by
    rw [hsplit, List.takeWhile_append_of_pos hfeed]
    simp
  have hdrop : (text ++ (crlf ++ t)).dropWhile (· ≠ byte '\n') = byte '\n' :: t := by
    rw [hsplit, List.dropWhile_append_of_pos hfeed]
    simp
  rw [readLine, crlfIndex_append_crlf h.1]
  dsimp only
  rw [htake, hdrop, if_neg (by simp), List.dropLast_concat, List.tail_cons]

theorem isSpace_of_isDigit {b : UInt8} (h : Decimal.isDigit b = true) : isSpace b = false := by
  simp only [Decimal.isDigit, Bool.and_eq_true, decide_eq_true_eq] at h
  apply decide_eq_false
  intro hspace
  obtain rfl | ⟨-, hspace⟩ := hspace
  · exact absurd h.1 (by decide)
  · have hle : b.toNat ≤ 13 := UInt8.le_iff_toNat_le.mp hspace
    omega

theorem stoll_print {n : Nat} (h : n < 2 ^ 63) : stoll (Decimal.print n) = some (n : Int) := by
  have hall : ∀ b ∈ Decimal.print n, Decimal.isDigit b = true :=
    fun b => Decimal.isDigit_of_mem_print
  have hspace : (Decimal.print n).dropWhile isSpace = Decimal.print n := by
    rw [List.dropWhile_eq_self_iff]
    intro hpos
    rw [isSpace_of_isDigit (hall _ (List.getElem_mem hpos))]
    exact Bool.false_ne_true
  have hhead : ∀ c : UInt8, Decimal.isDigit c = false →
      ¬(Decimal.print n).head? = some c := by
    intro c hc hfront
    rw [hall c (List.mem_of_head? hfront)] at hc
    cases hc
  have htake : (Decimal.print n).takeWhile Decimal.isDigit = Decimal.print n :=
    List.takeWhile_eq_self_iff.mpr hall
  have hrange : ¬((n : Int) < -2 ^ 63 ∨ 2 ^ 63 ≤ (n : Int)) := by omega
  rw [stoll]
  simp only [hspace, hhead (byte '-') (by decide), hhead (byte '+') (by decide), decide_false,
    Bool.false_eq_true, or_self, if_false, htake, Decimal.read_print, Decimal.print_ne_nil,
    hrange]

theorem isText_cons {front : UInt8} (hfront : front ≠ byte '\r' ∧ front ≠ byte '\n')
    (h : Reply.IsText text) : Reply.IsText (front :: text) := by
  simp only [Reply.IsText, List.mem_cons, not_or]
  exact ⟨⟨hfront.1.symm, h.1⟩, hfront.2.symm, h.2⟩

end Lines

section Reading
variable {levels : Nat} {text t : Bytes}

theorem readNested_bulk (levels : Nat) {value : Bytes} (h : value.length < 2 ^ 63) (t : Bytes) :
    readNested (levels + 1) (RespCodec.bulk value ++ t) = some (true, t) := by
  have hline : RespCodec.bulk value ++ t =
      (byte '$' :: Decimal.print value.length) ++ (crlf ++ (value ++ crlf ++ t)) := by
    simp [RespCodec.bulk]
  have htext := isText_cons (by decide : byte '$' ≠ byte '\r' ∧ byte '$' ≠ byte '\n')
    (isText_print value.length)
  have hrest : consumeBytes ((value.length : Int).toNat + 2) (value ++ crlf ++ t) = some t := by
    have hlength : (value ++ crlf).length = (value.length : Int).toNat + 2 := by
      simp [crlf]
    rw [← hlength, consumeBytes, if_neg, List.drop_left]
    simp
  rw [readNested, hline, readLine_append htext, Option.bind_eq_bind, Option.bind_some]
  dsimp only
  rw [if_neg (by decide), if_neg (by decide), if_pos rfl, stoll_print h, Option.bind_eq_bind,
    Option.bind_some, if_pos (Int.natCast_nonneg _), hrest, Option.bind_eq_bind, Option.bind_some]

theorem readElements_encodeAll {read : Bytes → Option (Bool × Bytes)} {items : List Reply}
    (hread : ∀ item ∈ items, ∀ t, read (item.encode ++ t) = some (item.succeeds, t))
    (success : Bool) (t : Bytes) :
    readElements read items.length success (Reply.encodeAll items ++ t) =
      some (Reply.succeedsAll items && success, t) := by
  induction items generalizing success with
  | nil => rfl
  | cons item items ih =>
    have hrest := ih fun item hitem => hread item (List.mem_cons_of_mem _ hitem)
    rw [List.length_cons, readElements, Reply.encodeAll, List.append_assoc,
      hread item List.mem_cons_self, Option.bind_eq_bind, Option.bind_some]
    dsimp only
    rw [hrest, Reply.succeedsAll, ← Bool.and_assoc,
      Bool.and_comm (Reply.succeedsAll items) item.succeeds]

/-- A line that is a whole reply is a failure if it starts with `-`. -/
theorem readNested_line {front : UInt8} (hfront : front = byte '-' ∨ front = byte '+' ∨
      front = byte ':' ∨ front = byte '_') (htext : Reply.IsText text) (t : Bytes) :
    readNested (levels + 1) ((front :: text) ++ (crlf ++ t)) = some (decide (front ≠ byte '-'), t) := by
  have hends : front ≠ byte '\r' ∧ front ≠ byte '\n' := by
    obtain rfl | rfl | rfl | rfl := hfront <;> decide
  rw [readNested, readLine_append (isText_cons hends htext), Option.bind_eq_bind, Option.bind_some]
  obtain rfl | rfl | rfl | rfl := hfront <;> rfl

/-- The elements that the line before them announces; a map has two for each of its entries. -/
theorem readNested_elements {front : UInt8} {n count : Nat}
    (hfront : front = byte '*' ∧ count = n ∨ front = byte '%' ∧ count = n * 2)
    (hcount : count < 2 ^ 63) (t : Bytes) :
    readNested (levels + 1) ((front :: Decimal.print n) ++ (crlf ++ t)) =
      readElements (readNested levels) count true t := by
  have hends : front ≠ byte '\r' ∧ front ≠ byte '\n' := by
    obtain ⟨rfl, -⟩ | ⟨rfl, -⟩ := hfront <;> decide
  have hn : n < 2 ^ 63 := by omega
  have hnonneg : ¬ (n : Int) < 0 := by omega
  rw [readNested, readLine_append (isText_cons hends (isText_print n)), Option.bind_eq_bind,
    Option.bind_some]
  dsimp only
  obtain ⟨rfl, rfl⟩ | ⟨rfl, rfl⟩ := hfront
  · rw [if_neg (by decide), if_neg (by decide), if_neg (by decide), if_pos (Or.inl rfl),
      stoll_print hn, Option.bind_eq_bind, Option.bind_some, if_neg hnonneg]
    rw [if_neg (by decide : ¬byte '*' = byte '%'), if_neg (by omega), Int.toNat_natCast]
  · have htwice : ((n : Int) * 2).toNat = n * 2 := by omega
    rw [if_neg (by decide), if_neg (by decide), if_neg (by decide), if_pos (Or.inr rfl),
      stoll_print hn, Option.bind_eq_bind, Option.bind_some, if_neg hnonneg]
    rw [if_pos rfl, if_neg (by omega), htwice]

/-- The client reads a reply to its last byte, whatever follows. -/
theorem readNested_encode {reply : Reply} (h : reply.Readable levels) (t : Bytes) :
    readNested levels (reply.encode ++ t) = some (reply.succeeds, t) := by
  induction h generalizing t with
  | @simple levels text line =>
    have hline : (Reply.simple text).encode ++ t = (byte '+' :: text) ++ (crlf ++ t) := by
      simp [Reply.encode]
    rw [hline, readNested_line (Or.inr (Or.inl rfl)) line]
    rfl
  | @error levels text line =>
    have hline : (Reply.error text).encode ++ t = (byte '-' :: text) ++ (crlf ++ t) := by
      simp [Reply.encode]
    rw [hline, readNested_line (Or.inl rfl) line]
    rfl
  | @integer levels value =>
    have hsign : Reply.IsText ((if value < 0 then [byte '-'] else []) ++
        Decimal.print value.natAbs) := by
      apply isText_append _ (isText_print _)
      split <;> constructor <;> decide
    have hline : (Reply.integer value).encode ++ t =
        (byte ':' :: ((if value < 0 then [byte '-'] else []) ++ Decimal.print value.natAbs)) ++
          (crlf ++ t) := by
      simp [Reply.encode, RespCodec.integer]
    rw [hline, readNested_line (Or.inr (Or.inr (Or.inl rfl))) hsign]
    rfl
  | bulk fits =>
    rw [Reply.encode]
    exact readNested_bulk _ fits t
  | nullBulk =>
    have hline : Reply.nullBulk.encode ++ t = ascii "$-1" ++ (crlf ++ t) := rfl
    have htext : Reply.IsText (ascii "$-1") := by constructor <;> decide
    rw [readNested, hline, readLine_append htext, Option.bind_eq_bind, Option.bind_some]
    rfl
  | null =>
    have hline : Reply.null.encode ++ t = (byte '_' :: []) ++ (crlf ++ t) := rfl
    have htext : Reply.IsText [] := ⟨List.not_mem_nil, List.not_mem_nil⟩
    rw [hline, readNested_line (Or.inr (Or.inr (Or.inr rfl))) htext]
    rfl
  | @array levels items fits each ih =>
    have hline : (Reply.array items).encode ++ t =
        (byte '*' :: Decimal.print items.length) ++ (crlf ++ (Reply.encodeAll items ++ t)) := by
      simp [Reply.encode]
    rw [hline, readNested_elements (Or.inl ⟨rfl, rfl⟩) fits, readElements_encodeAll ih,
      Bool.and_true, Reply.succeeds]
  | @map levels items even fits each ih =>
    have hline : (Reply.map items).encode ++ t =
        (byte '%' :: Decimal.print (items.length / 2)) ++ (crlf ++ (Reply.encodeAll items ++ t)) := by
      simp [Reply.encode]
    have hcount : items.length = items.length / 2 * 2 := by omega
    rw [hline, readNested_elements (Or.inr ⟨rfl, hcount⟩) fits, readElements_encodeAll ih,
      Bool.and_true, Reply.succeeds]

end Reading

end Radish.RespConnection
