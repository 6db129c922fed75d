import Radish.ReachableStore
import Radish.RespConnection

/-!
# The options of the server

`ParseOptions` and the construction of the database in `main`. A thrown exception is the text of
its `what()`, which is all that `main` uses of it.
-/

namespace Radish
set_option autoImplicit false

open RespCodec RespConnection

/-- `ttl` is unset unless the option is given. -/
structure ServerOptions where
  bindAddress : Bytes := ascii "127.0.0.1"
  dataFile : Bytes := ascii "radish"
  port : UInt16 := 6379
  ttl : Option Timestamp := none
  persistenceEnabled : Bool := true

/-- `std::stoul`, which negates modulo 2^64 what a minus sign precedes. -/
def stoul (text : Bytes) : Option Nat :=
  let text := text.dropWhile isSpace
  let negative : Bool := text.head? = some (byte '-')
  let digits := if negative ∨ text.head? = some (byte '+') then text.tail else text
  let magnitude := Decimal.read (digits.takeWhile Decimal.isDigit)
  if digits.takeWhile Decimal.isDigit = [] ∨ 2 ^ 64 ≤ magnitude then none
  else some (if negative then (2 ^ 64 - magnitude) % 2 ^ 64 else magnitude)

namespace ServerOptions

/-- The body of the loop. -/
def parseOption (options : ServerOptions) (option value : Bytes) : Except Bytes ServerOptions :=
  if option = ascii "--bind" then .ok { options with bindAddress := value }
  else if option = ascii "--port" then
    match stoul value with
    | none => .error (ascii "stoul")
    | some parsed =>
      if parsed > 65535 then .error (ascii "Port must be between 0 and 65535")
      else .ok { options with port := UInt16.ofNat parsed }
  else if option = ascii "--data-file" then .ok { options with dataFile := value }
  else if option = ascii "--ttl-ms" then
    match stoll value with
    | none => .error (ascii "stoll")
    | some parsed =>
      if Int64.ofInt parsed < 0 then .error (ascii "TTL must be non-negative")
      else .ok { options with ttl := some (Int64.ofInt parsed) }
  else if option = ascii "--persistence" then
    if value = ascii "flush" then .ok { options with persistenceEnabled := true }
    else if value = ascii "off" then .ok { options with persistenceEnabled := false }
    else .error (ascii "Persistence must be 'flush' or 'off'")
  else .error (ascii "Unknown option: " ++ option)

/-- The loop, two arguments at a time. -/
def parseArguments (options : ServerOptions) : List Bytes → Except Bytes ServerOptions
  | [] => .ok options
  | [option] => .error (ascii "Missing value for " ++ option)
  | option :: value :: arguments => do
    let options ← options.parseOption option value
    parseArguments options arguments

/-- The first argument is the name of the program. -/
def parseOptions (arguments : List Bytes) : Except Bytes ServerOptions :=
  parseArguments {} arguments.tail

/-- The database `main` constructs; `writer` is what the disk holds under the data file's name. -/
def openDatabase (now : Timestamp) (options : ServerOptions) (writer : LogWriter) :
    Except Exception (RadishDB Bytes) :=
  RadishDB.new now (options.ttl.getD (-1))
    (if options.persistenceEnabled then .flush else .disabled) writer

/-! ## The time to live -/

/-- A ttl that is set is not negative, so it is never the -1 of a store without one. -/
def Valid (options : ServerOptions) : Prop := ∀ ttl, options.ttl = some ttl → 0 ≤ ttl

theorem valid_default : ({} : ServerOptions).Valid := by
  intro ttl httl
  cases httl

theorem Valid.parseOption {options parsed : ServerOptions} {option value : Bytes}
    (h : options.Valid) (hparse : options.parseOption option value = .ok parsed) :
    parsed.Valid := by
  unfold ServerOptions.parseOption at hparse
  split at hparse
  · cases hparse
    exact h
  split at hparse
  · split at hparse
    · cases hparse
    · split at hparse
      · cases hparse
      · cases hparse
        exact h
  split at hparse
  · cases hparse
    exact h
  split at hparse
  · split at hparse
    · cases hparse
    · split at hparse
      · cases hparse
      · rename_i hnonneg
        cases hparse
        intro ttl httl
        obtain rfl := Option.some.inj httl
        exact Int64.not_lt.mp hnonneg
  split at hparse
  · split at hparse
    · cases hparse
      exact h
    · split at hparse
      · cases hparse
        exact h
      · cases hparse
  cases hparse

theorem Valid.parseArguments {options parsed : ServerOptions} {arguments : List Bytes}
    (h : options.Valid) (hparse : options.parseArguments arguments = .ok parsed) :
    parsed.Valid := by
  induction options, arguments using ServerOptions.parseArguments.induct with
  | case1 options =>
    cases hparse
    exact h
  | case2 options option => cases hparse
  | case3 options option value arguments ih =>
    rw [ServerOptions.parseArguments] at hparse
    cases hoption : options.parseOption option value with
    | error what =>
      rw [hoption] at hparse
      cases hparse
    | ok next =>
      rw [hoption] at hparse
      exact ih next (h.parseOption hoption) hparse

theorem parseOption_ttl {ttl : Timestamp} (h : 0 ≤ ttl) (options : ServerOptions) :
    options.parseOption (ascii "--ttl-ms") (Decimal.print ttl.toInt.toNat) =
      .ok { options with ttl := some ttl } := by
  have hnonneg : (0 : Int) ≤ ttl.toInt := Int64.le_iff_toInt_le.mp h
  have hbound := Int64.toInt_lt ttl
  have hread : stoll (Decimal.print ttl.toInt.toNat) = some ttl.toInt := by
    rw [stoll_print (by omega), Int.toNat_of_nonneg hnonneg]
  have hvalue : Int64.ofInt ttl.toInt = ttl := Int64.ofInt_toInt ttl
  unfold ServerOptions.parseOption
  rw [if_neg (by decide), if_neg (by decide), if_neg (by decide), if_pos rfl, hread]
  dsimp only
  rw [hvalue, if_neg (Int64.not_lt.mpr h)]

/-- A ttl with which the server can be started. -/
def AcceptedTtl (ttl : Timestamp) : Prop :=
  ∃ arguments options, parseOptions arguments = .ok options ∧ options.ttl = some ttl

theorem acceptedTtl_iff {ttl : Timestamp} : AcceptedTtl ttl ↔ 0 ≤ ttl := by
  constructor
  · intro haccepted
    obtain ⟨arguments, options, hparse, httl⟩ := haccepted
    exact valid_default.parseArguments hparse ttl httl
  · intro hnonneg
    refine ⟨[ascii "radish-server", ascii "--ttl-ms", Decimal.print ttl.toInt.toNat],
      { ttl := some ttl }, ?_, rfl⟩
    rw [parseOptions, List.tail_cons, ServerOptions.parseArguments, parseOption_ttl hnonneg]
    rfl

end ServerOptions

end Radish
