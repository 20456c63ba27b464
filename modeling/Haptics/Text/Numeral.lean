/-!
# Numbers as people write them

Integers in base ten, or in base sixteen, eight or two behind a mark, and decimals with an exponent.
A number that begins with a needless zero is none.
-/

namespace Haptics.Text

/-- A number that is written in decimal. -/
inductive Numeral
  | nan
  | infinite (negative : Bool)
  /-- `± digits · 10 ^ exponent`. -/
  | finite (negative : Bool) (digits : Nat) (exponent : Int)
deriving DecidableEq, Repr

/-- Types in which a written number has a value. -/
class OfNumeral (R : Type) where
  ofNumeral : Numeral → R

def digit? (base : Nat) (c : Char) : Option Nat :=
  let d? :=
    if c.isDigit then some (c.toNat - '0'.toNat)
    else if 'a' ≤ c ∧ c ≤ 'z' then some (c.toNat - 'a'.toNat + 10)
    else if 'A' ≤ c ∧ c ≤ 'Z' then some (c.toNat - 'A'.toNat + 10)
    else none
  d?.filter (· < base)

/-- The number that digits of a base write. -/
def digits? (base : Nat) (cs : List Char) : Option Nat :=
  if cs.isEmpty then none
  else cs.foldlM (fun n c => (digit? base c).map (base * n + ·)) 0

/-- Whether digits begin with a zero that adds nothing. -/
def hasNeedlessZero (cs : List Char) : Bool :=
  2 ≤ cs.length && cs.head? == some '0' && cs.all Char.isDigit

/-- A natural number behind its sign. -/
def magnitude? (cs : List Char) : Option Nat :=
  match cs with
  | '0' :: 'x' :: rest => digits? 16 rest
  | '0' :: 'o' :: rest => digits? 8 rest
  | '0' :: 'b' :: rest => digits? 2 rest
  | _ => if hasNeedlessZero cs then none else digits? 10 cs

/-- Reads an integer. -/
def integer? (s : String) : Option Int :=
  match s.toList with
  | '-' :: cs => (magnitude? cs).map fun n => -(n : Int)
  | '+' :: cs => (magnitude? cs).map fun n => (n : Int)
  | cs => (magnitude? cs).map fun n => (n : Int)

/-- Reads a natural number, which has no minus sign even if it is zero. -/
def natural? (s : String) : Option Nat :=
  match s.toList with
  | '+' :: cs => magnitude? cs
  | cs => magnitude? cs

/-! ## Decimals -/

/-- The exponent behind a decimal. -/
def exponent? : List Char → Option Int
  | [] => some 0
  | e :: cs =>
    if e = 'e' ∨ e = 'E' then
      match cs with
      | '-' :: cs => (digits? 10 cs).map fun n => -(n : Int)
      | '+' :: cs => (digits? 10 cs).map fun n => (n : Int)
      | cs => (digits? 10 cs).map fun n => (n : Int)
    else none

/-- Reads a decimal without a sign: digits, with a point before, behind or between them, and an
exponent. -/
def decimal? (cs : List Char) : Option (Nat × Int) := do
  let whole := cs.takeWhile Char.isDigit
  let rest := cs.dropWhile Char.isDigit
  let (places, rest) := match rest with
    | '.' :: rest => (rest.takeWhile Char.isDigit, rest.dropWhile Char.isDigit)
    | _ => ([], rest)
  let digits ← digits? 10 (whole ++ places)
  let exponent ← exponent? rest
  some (digits, exponent - places.length)

/-- From here on a decimal is nearer to the next power of two than to the largest binary64
number. -/
def overflow : Nat := Nat.pow 2 1024 - Nat.pow 2 970

/-- The number `digits · 10 ^ exponent` if it is in the range of binary64. One that is too small to
differ from zero is zero. -/
def inRange? (digits : Nat) (exponent : Int) : Option (Nat × Int) :=
  let size : Int := (toString digits).length + exponent
  if digits = 0 ∨ size < -400 then some (0, 0)
  else if 310 < size then none
  else if 0 ≤ exponent ∧ overflow ≤ digits * Nat.pow 10 exponent.toNat then none
  else if exponent < 0 ∧ overflow * Nat.pow 10 (-exponent).toNat ≤ digits then none
  else some (digits, exponent)

/-- Reads a number with or without a fraction. -/
def numeral? (s : String) : Option Numeral :=
  let finite (negative : Bool) (cs : List Char) : Option Numeral := do
    let (digits, exponent) ← decimal? cs
    let (digits, exponent) ← inRange? digits exponent
    some (.finite negative digits exponent)
  if [".nan", ".NaN", ".NAN"].contains s then some .nan
  else match s.toList with
    | '-' :: cs =>
      if [".inf", ".Inf", ".INF"].contains (String.ofList cs) then some (.infinite true)
      else finite true cs
    | '+' :: cs =>
      if [".inf", ".Inf", ".INF"].contains (String.ofList cs) then some (.infinite false)
      else finite false cs
    | cs =>
      if [".inf", ".Inf", ".INF"].contains s then some (.infinite false) else finite false cs

end Haptics.Text
