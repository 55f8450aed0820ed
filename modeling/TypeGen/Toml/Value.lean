/-!
TOML values. A string keeps the stretch of the text that it was written in, so that a complaint
about it can point there; no other value is ever pointed at.
-/

namespace TypeGen.Toml

/-- A stretch of a text, in bytes. -/
structure Span where
  offset : Nat
  length : Nat
  deriving DecidableEq, Repr

/-- A text and where it stands. -/
structure Located where
  text : String
  span : Span
  deriving DecidableEq, Repr

inductive Value where
  | string (s : Located)
  | integer (n : Int)
  /-- A decimal `mantissa * 10 ^ exponent` without its sign, or nothing for `inf` and `nan`. -/
  | float (decimal : Option (Nat × Int))
  | boolean (b : Bool)
  /-- A date, a time or both: nothing asks which. -/
  | moment
  /-- A word that begins like a number and is none: it may stand only where nothing looks. -/
  | illFormed
  | array (items : List Value)
  | table (entries : List (String × Value))

abbrev Table := List (String × Value)

/-- Numbers of up to 128 bits. -/
def integerFits (n : Int) : Bool := -Int.ofNat (Nat.pow 2 127) ≤ n && n < Int.ofNat (Nat.pow 2 128)

/-- The least number that rounds to infinity in double precision. -/
def overflow : Nat := Nat.pow 2 1024 - Nat.pow 2 970

/-- Decimals that do not round to infinity in double precision. -/
def decimalFits (mantissa : Nat) (exponent : Int) : Bool :=
  let places := (Nat.toDigits 10 mantissa).length + exponent
  if mantissa = 0 || places < 300 then true
  else if 310 < places then false
  else if 0 ≤ exponent then mantissa * Nat.pow 10 exponent.toNat < overflow
  else mantissa < overflow * Nat.pow 10 (-exponent).toNat

mutual

/-- Whether a value, read but not used, holds only numbers that are well formed and can be
represented. -/
def Value.fits : Value → Bool
  | .integer n => integerFits n
  | .float (some (m, e)) => decimalFits m e
  | .illFormed => false
  | .array items => allFit items
  | .table entries => entriesFit entries
  | _ => true

def allFit : List Value → Bool
  | [] => true
  | v :: vs => v.fits && allFit vs

def entriesFit : List (String × Value) → Bool
  | [] => true
  | (_, v) :: es => v.fits && entriesFit es

end

end TypeGen.Toml
