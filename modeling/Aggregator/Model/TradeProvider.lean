import Aggregator.Model.Pallet

/-! # The trade provider (`trade_provider`, `utils.rs`)

The parser of `lite_json` and the HTTP client of the offchain worker are parameters. -/

namespace Aggregator

/-! ## JSON values (`lite_json`) -/

structure NumberValue where
  integer : Int64
  fraction : UInt64
  fractionLength : UInt32
  exponent : Int32
  deriving DecidableEq, Repr

inductive JsonValue where
  | object (entries : List (List Char × JsonValue))
  | array (values : List JsonValue)
  | string (chars : List Char)
  | number (number : NumberValue)
  | boolean (value : Bool)
  | null

/-! ## Arithmetic of `u128` -/

namespace U128

variable {ε : Type}

/-- An exact result as a `u128`: overflow panics where it is checked and wraps elsewhere. -/
def ofExact (build : Build) (n : ℕ) : Exec ε ℕ :=
  if build.overflowChecks ∧ u128Max < n then Exec.panic .overflow else .ok (n % 2 ^ 128)

def pow (build : Build) (base exp : ℕ) : Exec ε ℕ := ofExact build (base ^ exp)

def mul (build : Build) (a b : ℕ) : Exec ε ℕ := ofExact build (a * b)

def add (build : Build) (a b : ℕ) : Exec ε ℕ := ofExact build (a + b)

def div (a b : ℕ) : Exec ε ℕ := if b = 0 then Exec.panic .divideByZero else .ok (a / b)

/-- `i as u128`, which extends the sign. -/
def ofInt64 (i : Int64) : ℕ := (i.toInt % 2 ^ 128).toNat

end U128

/-- `a - b` of type `u32`. -/
def subU32 {ε : Type} (build : Build) (a b : UInt32) : Exec ε UInt32 :=
  if build.overflowChecks ∧ a < b then Exec.panic .overflow else .ok (a - b)

/-! ## Prices -/

/-- `bytes.iter().map(|b| *b as char)`. -/
def asChars (bytes : List UInt8) : List Char := bytes.map fun b => Char.ofNat b.toNat

/-- The number at the first key that agrees with the target currency. -/
def findNumber {ε : Type} (val : Except ε JsonValue) (targetCurrency : List UInt8) :
    Option NumberValue :=
  match val with
  | .ok (.object obj) =>
      match obj.find? fun x => decide (x.1 = asChars targetCurrency) with
      | some (_, .number number) => some number
      | _ => none
  | _ => none

/-- The last two lines of `parse_price`. -/
def scaledPrice {ε : Type} (build : Build) (price : NumberValue) (scale : UInt32) :
    Exec ε ℕ := do
  -- `saturating_sub`, as the difference of natural numbers
  let exp := price.fractionLength.toNat - 2
  let unit ← U128.pow build 10 scale.toNat
  let integer ← U128.mul build (U128.ofInt64 price.integer) unit
  let hundredth ← U128.pow build 10 (← subU32 build scale 2).toNat
  let fraction ← U128.mul build price.fraction.toNat hundredth
  let quotient ← U128.div fraction (← U128.pow build 10 exp)
  U128.add build integer quotient

/-- Parse the price from the given JSON string using `lite-json`. -/
def parsePrice {ε ε' : Type} (build : Build) (parseJson : String → Except ε' JsonValue)
    (priceStr : String) (targetCurrency : List UInt8) (scale : UInt32) : Exec ε (Option ℕ) :=
  match findNumber (parseJson priceStr) targetCurrency with
  | none => .ok none
  | some price => do return some (← scaledPrice build price scale)

/-! ## Providers -/

/-- Concat 4 &[u8]'s together. -/
def concat4 (bin1 bin2 bin3 bin4 : List UInt8) : List UInt8 := bin1 ++ bin2 ++ bin3 ++ bin4

inductive HttpError where
  | deadlineReached
  | ioError
  | unknown
  deriving DecidableEq, Repr

inductive TradeProviderErr where
  | transportErr (e : HttpError)
  deriving DecidableEq, Repr

structure HttpResponse where
  code : UInt16
  body : List UInt8

/-- What becomes of a GET request. -/
inductive HttpOutcome where
  | notSent
  | notFinished
  | failed (e : HttpError)
  | response (response : HttpResponse)

/-- The response, or the error of `send` or `try_wait`. -/
def HttpOutcome.await : HttpOutcome → Exec TradeProviderErr HttpResponse
  | .notSent => Exec.fail (.transportErr .ioError)
  | .notFinished => Exec.fail (.transportErr .deadlineReached)
  | .failed e => Exec.fail (.transportErr e)
  | .response r => .ok r

/-- What the provider's code calls: the HTTP client and the parser. -/
structure ProviderEnv (ε : Type) where
  get : String → HttpOutcome
  parseJson : String → Except ε JsonValue

namespace CryptoCompare

def getPrice {ε : Type} (build : Build) (env : ProviderEnv ε) (source target : List UInt8)
    (scale : UInt32) : Exec TradeProviderErr ℕ := do
  let urlBin := concat4 "https://min-api.cryptocompare.com/data/price?fsym=".toUTF8.toList source
    "&tsyms=".toUTF8.toList target
  let url ← Exec.orErr (.transportErr .unknown) (String.fromUTF8? ⟨urlBin.toArray⟩)
  let response ← (env.get url).await
  Exec.ensure (response.code = 200) (.transportErr .unknown)
  let bodyStr ← Exec.orErr (.transportErr .unknown)
    (String.fromUTF8? ⟨response.body.toArray⟩)
  let price ← parsePrice build env.parseJson bodyStr target scale
  Exec.orErr (.transportErr .unknown) price

end CryptoCompare

namespace TradeProviderImpl

def SCALE : UInt32 := 12

def getPrice {ε : Type} (build : Build) (env : ProviderEnv ε) (provider : Provider)
    (source target : List UInt8) : Exec TradeProviderErr ℕ :=
  match provider with
  | .cryptoCompare => CryptoCompare.getPrice build env source target SCALE

end TradeProviderImpl

end Aggregator
