/-!
# Double-precision numbers

A finite double is a sign, a mantissa below `2 ^ 53` and a power of two. All arithmetic is
exact arithmetic on natural numbers followed by one rounding to the nearest double, ties to
the even mantissa, so every result can be computed in a proof. Results too large for a
double are `none`.
-/

namespace WorkflowAudit

/-- The double `± mantissa * 2 ^ exponent`. -/
structure Binary64 where
  negative : Bool
  mantissa : Nat
  exponent : Int
deriving DecidableEq, Repr, Inhabited

namespace Binary64

/-- The exponent of the smallest doubles. -/
def minExponent : Int := -1074

/-- The exponent of the largest doubles. -/
def maxExponent : Int := 971

def zero (negative : Bool) : Binary64 := ⟨negative, 0, minExponent⟩

def isZero (x : Binary64) : Bool := x.mantissa = 0

def neg (x : Binary64) : Binary64 := { x with negative := !x.negative }

/-- The least mantissa of the doubles that are not subnormal, `2 ^ 52`. -/
def leastNormal : Nat := 0x10000000000000

/-- Numerator and denominator of `n * b ^ e`. -/
def scaleRatio (n b : Nat) (e : Int) : Nat × Nat :=
  match e with
  | .ofNat k => (n * b.pow k, 1)
  | .negSucc k => (n, b.pow (k + 1))

/-- The magnitude of a double as a quotient. -/
def ratio (x : Binary64) : Nat × Nat := scaleRatio x.mantissa 2 x.exponent

/-- Half-even rounding of a quotient to a natural number. -/
def roundDiv (num den : Nat) : Nat :=
  let q := num / den
  let r := num % den
  if 2 * r > den || (2 * r = den && q % 2 = 1) then q + 1 else q

/-- The double nearest to `num / den`. -/
def roundQuotient (negative : Bool) (num den : Nat) : Option Binary64 :=
  if num = 0 then some (zero negative)
  else
    let guess : Int := (num.log2 : Int) - den.log2 - 52
    let shifted (e : Int) : Nat × Nat :=
      match e with
      | .ofNat k => (num, den <<< k)
      | .negSucc k => (num <<< (k + 1), den)
    let (n, d) := shifted guess
    let exact := if n / d < leastNormal then guess - 1 else guess
    let e := max exact minExponent
    let (n, d) := shifted e
    let m := roundDiv n d
    let (m, e) := if m = 2 * leastNormal then (leastNormal, e + 1) else (m, e)
    if e > maxExponent then none else some ⟨negative, m, e⟩

def ofNat (n : Nat) : Option Binary64 := roundQuotient false n 1

def mul (x y : Binary64) : Option Binary64 :=
  let (a, b) := x.ratio
  let (c, d) := y.ratio
  roundQuotient (x.negative != y.negative) (a * c) (b * d)

/-- The quotient by a double other than zero. -/
def div (x y : Binary64) : Option Binary64 :=
  let (a, b) := x.ratio
  let (c, d) := y.ratio
  roundQuotient (x.negative != y.negative) (a * d) (b * c)

/-- The double nearest to `significand * 10 ^ exponent`. Exponents far outside the range of a
    double are settled without computing the power. -/
def ofDecimal (negative : Bool) (significand : Nat) (exponent : Int) : Option Binary64 :=
  if significand = 0 then some (zero negative)
  else
    let magnitude := exponent + (Nat.toDigits 10 significand).length
    if magnitude > 400 then none
    else if magnitude < -400 then some (zero negative)
    else
      let (n, d) := scaleRatio significand 10 exponent
      roundQuotient negative n d

/-! ## Shortest decimal text -/

/-- The power of ten of the leading digit of `num / den`, for a positive quotient. -/
def leadingPower (num den : Nat) : Int :=
  let atLeast (e : Int) : Bool :=
    match e with
    | .ofNat k => den * Nat.pow 10 k ≤ num
    | .negSucc k => den ≤ num * Nat.pow 10 (k + 1)
  let guess : Int := (Nat.toDigits 10 num).length - (Nat.toDigits 10 den).length
  if atLeast guess then guess else guess - 1

/-- Decimals `d * 10 ^ grid` that read back as a given positive double: the nearer of the two
    neighbours on the grid, if one of them lies in the interval that rounds to the double. -/
def onGrid? (x : Binary64) (grid : Int) : Option Nat :=
  let (a, b) := scaleRatio 1 2 (x.exponent - 2)
  let (c, d) := scaleRatio 1 10 grid
  let value := 4 * x.mantissa * a * d
  let unit := c * b
  let lowerGap := if x.mantissa = leastNormal && x.exponent > minExponent then 1 else 2
  let low := (4 * x.mantissa - lowerGap) * a * d
  let high := (4 * x.mantissa + 2) * a * d
  let inside (n : Nat) : Bool :=
    let point := n * unit
    if x.mantissa % 2 = 0 then low ≤ point && point ≤ high else low < point && point < high
  let below := value / unit
  let above := below + 1
  if inside below then
    if inside above then
      let twice := 2 * value
      let middle := (2 * below + 1) * unit
      if twice < middle || (twice = middle && below % 2 = 0) then some below else some above
    else some below
  else if inside above then some above
  else none

/-- The shortest decimal `(d, g)`, meaning `d * 10 ^ g`, that reads back as a positive double,
    searched from one digit to seventeen. A double just below a power of ten may round up to
    it. -/
def shortest (x : Binary64) : Nat × Int :=
  let (num, den) := x.ratio
  let leading := leadingPower num den
  let found := (List.range 17).findSome? fun (k : Nat) =>
    let grid := leading - (k : Int)
    (onGrid? x grid).map fun d => if d = Nat.pow 10 (k + 1) then (1, leading + 1) else (d, grid)
  found.getD (num / den, 0)

/-- How decimals are laid out: which powers of the leading digit are written in full. -/
structure Layout where
  lowestPositional : Int
  highestPositional : Int
deriving DecidableEq, Repr

private def zeros (n : Nat) : String := String.ofList (List.replicate n '0')

/-- Positional text always has a digit after the point; scientific text has an explicit sign
    and no padding in the exponent. -/
def render (layout : Layout) (x : Binary64) : String :=
  let sign := if x.negative then "-" else ""
  if x.isZero then sign ++ "0.0"
  else
    let (d, grid) := x.shortest
    let digits := (toString d).toList
    let count := digits.length
    let power : Int := grid + count - 1
    if layout.lowestPositional ≤ power && power ≤ layout.highestPositional then
      match power with
      | .ofNat k =>
        if count ≤ k + 1 then sign ++ toString d ++ zeros (k + 1 - count) ++ ".0"
        else sign ++ String.ofList (digits.take (k + 1)) ++ "." ++
          String.ofList (digits.drop (k + 1))
      | .negSucc k => sign ++ "0." ++ zeros k ++ toString d
    else
      let mark := if power < 0 then "e-" else "e+"
      let rest := digits.drop 1
      let fraction := if rest.isEmpty then "" else "." ++ String.ofList rest
      sign ++ String.ofList (digits.take 1) ++ fraction ++ mark ++ toString power.natAbs

end Binary64

end WorkflowAudit
