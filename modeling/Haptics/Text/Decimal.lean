/-!
# Decimal text of binary32 numbers

A finite binary32 number is a natural number times a power of two, so its decimal texts are found
with exact natural-number arithmetic: a fixed number of places, or the fewest digits that read back.
-/

namespace Haptics.Text

/-- The quotient `num / den` rounded to the nearest natural number, a tie to the even one. -/
def roundDiv (num den : Nat) : Nat :=
  let q := num / den
  let r := num % den
  if den < 2 * r ∨ (2 * r = den ∧ q % 2 = 1) then q + 1 else q

/-- A binary32 number taken apart: `finite negative m e` is `± m · 2 ^ e`. -/
inductive Parts
  | nan
  | infinite (negative : Bool)
  | finite (negative : Bool) (m : Nat) (e : Int)
deriving DecidableEq, Repr

/-- Reads the sign, exponent and fraction fields of a binary32 number. -/
def Parts.ofBits (bits : Nat) : Parts :=
  let negative := bits / 2147483648 % 2 == 1
  let exponent : Nat := bits / 8388608 % 256
  let fraction := bits % 8388608
  if exponent = 255 then
    if fraction = 0 then .infinite negative else .nan
  else if exponent = 0 then .finite negative fraction (-149)
  else .finite negative (8388608 + fraction) ((exponent : Int) - 150)

def Parts.ofFloat (x : Float32) : Parts := .ofBits x.toBits.toNat

/-- `m · 2 ^ e` as a fraction of natural numbers. -/
def fraction (m : Nat) (e : Int) : Nat × Nat :=
  if 0 ≤ e then (m * Nat.pow 2 e.toNat, 1) else (m, Nat.pow 2 (-e).toNat)

def signed (negative : Bool) (s : String) : String := if negative then "-" ++ s else s

/-- The decimal digits of `n`, most significant first, at least `width` of them. -/
def digits (n width : Nat) : String :=
  let s := toString n
  String.ofList (List.replicate (width - s.length) '0') ++ s

/-! ## A fixed number of places -/

/-- `m · 2 ^ e` with `places` digits after the point, rounded to nearest, a tie to the even
digit. -/
def fixedMagnitude (places m : Nat) (e : Int) : String :=
  let (num, den) := fraction m e
  let scaled := roundDiv (num * Nat.pow 10 places) den
  digits (scaled / Nat.pow 10 places) 1 ++ "." ++ digits (scaled % Nat.pow 10 places) places

/-- The text of a level with six places. -/
def fixed (x : Float32) : String :=
  match Parts.ofFloat x with
  | .nan => "NaN"
  | .infinite negative => signed negative "inf"
  | .finite negative m e => signed negative (fixedMagnitude 6 m e)

/-! ## The fewest digits -/

/-- A decimal `coefficient · 10 ^ exponent`. -/
structure Scientific where
  coefficient : Nat
  exponent : Int
deriving DecidableEq, Repr

/-- The decimal grid of spacing `10 ^ k` around `num / den`: the point of it that lies between the
bounds `lo` and `hi` (all over `den`, ends allowed when `closed`) and nearest to `num`, the lower
one on a tie. -/
def nearestOnGrid (num lo hi den : Nat) (closed : Bool) (k : Int) : Option Scientific :=
  let (up, down) := fraction10 k
  let unit := den * up
  let below := num * down / unit
  let fits (d : Nat) : Bool :=
    let x := d * unit
    if closed then lo * down ≤ x && x ≤ hi * down else lo * down < x && x < hi * down
  let gap := num * down - below * unit
  match fits below, fits (below + 1) with
  | true, true => if 2 * gap ≤ unit then some ⟨below, k⟩ else some ⟨below + 1, k⟩
  | true, false => some ⟨below, k⟩
  | false, true => some ⟨below + 1, k⟩
  | false, false => none
where
  /-- `10 ^ k` as a fraction. -/
  fraction10 (k : Int) : Nat × Nat :=
    if 0 ≤ k then (Nat.pow 10 k.toNat, 1) else (1, Nat.pow 10 (-k).toNat)

/-- The number of decimal digits of the integer part of `num / den`, or minus the number of zeros
after the point. -/
def magnitude (num den : Nat) : Int :=
  let q := num / den
  if q ≠ 0 then (toString q).length
  else 1 - (toString (den / num)).length

/-- The shortest decimal that reads back as the binary32 number `m · 2 ^ e`, and of those the
nearest. Nine digits always suffice. -/
def shortest (m : Nat) (e : Int) : Scientific :=
  -- a lower neighbour half as far away below a power of two
  let narrow := m = 8388608 ∧ -149 < e
  let (num, den) := fraction (4 * m) (e - 2)
  let (up, _) := fraction (4 * m + 2) (e - 2)
  let (down, _) := fraction (4 * m - if narrow then 1 else 2) (e - 2)
  let top := magnitude num den
  let tries := (List.range 12).filterMap fun (i : Nat) =>
    nearestOnGrid num down up den (m % 2 == 0) (top + 1 - (i : Int))
  let trimmed (s : Scientific) : Scientific := trim 12 s
  match tries with
  | s :: _ => trimmed s
  | [] => ⟨m, e⟩
where
  /-- Drops trailing zeros of the digits. -/
  trim : Nat → Scientific → Scientific
    | 0, s => s
    | n + 1, s =>
      if s.coefficient % 10 = 0 ∧ s.coefficient ≠ 0 then
        trim n ⟨s.coefficient / 10, s.exponent + 1⟩
      else s

/-- A decimal in positional notation, with a point and at least one place. -/
def Scientific.positional (s : Scientific) : String :=
  let ds := toString s.coefficient
  if 0 ≤ s.exponent then ds ++ String.ofList (List.replicate s.exponent.toNat '0') ++ ".0"
  else
    let places := (-s.exponent).toNat
    let padded := digits s.coefficient (places + 1)
    let cut := padded.length - places
    String.ofList (padded.toList.take cut) ++ "." ++ String.ofList (padded.toList.drop cut)

/-- A decimal as one digit, the other digits after a point, and a power of ten. -/
def Scientific.exponential (s : Scientific) : String :=
  let ds := toString s.coefficient
  let rest := ds.toList.drop 1
  let head := String.ofList (ds.toList.take 1)
  let mantissa := if rest.isEmpty then head else head ++ "." ++ String.ofList rest
  mantissa ++ "e" ++ toString (s.exponent + rest.length)

/-- The shortest text of a level: positional with a point from one ten-thousandth up to below ten
to the sixteenth, exponential outside. -/
def short (x : Float32) : String :=
  match Parts.ofFloat x with
  | .nan => "NaN"
  | .infinite negative => signed negative "inf"
  | .finite negative 0 _ => signed negative "0.0"
  | .finite negative m e =>
    let s := shortest m e
    let y := x.abs
    signed negative (if y < 0.0001 || 10000000000000000.0 ≤ y then s.exponential else s.positional)

end Haptics.Text
