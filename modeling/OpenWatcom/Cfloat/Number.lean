import OpenWatcom.Lib.Decimal

/-! # Decimal floating constants

`cfloat`: a sign, an exponent and the digits of a mantissa, which begins behind the decimal point.  The digits are
a list, and the terminating NUL and the allocated size are left out.  A position `pos` is that of the digit that
counts `10 ^ (pos - 1)`. -/

namespace OpenWatcom.Cfloat

/-! ### Numbers -/

/-- A `cfloat`; its `len` is the length of the list. -/
structure CFloat where
  exp : Int
  sign : Int
  mant : List ℕ
  deriving DecidableEq, Repr

/-- What `CFAlloc` gives: zero. -/
def cfAlloc : CFloat := ⟨1, 0, [0]⟩

/-- `CF_MAX_PREC`. -/
def cfMaxPrec : ℕ := 32

namespace CFloat

def len (f : CFloat) : Int := f.mant.length

/-- `CFAccess`. -/
def access (f : CFloat) (index : Int) : ℕ := f.mant.getD index.toNat 0

/-- `CFNegate`. -/
def negate (f : CFloat) : CFloat := { f with sign := -f.sign }

end CFloat

/-- `CFClean`: zeros behind and in front of the digits go, and the digits behind the 32nd. -/
def cfClean (f : CFloat) : CFloat :=
  let body := f.mant.rdropWhile (· = 0)
  if f.mant ≠ [] ∧ body = [] then ⟨1, 0, [0]⟩
  else
    { f with
      exp := f.exp - (body.takeWhile (· = 0)).length
      mant := (body.dropWhile (· = 0)).take cfMaxPrec }

/-! ### Sums -/

/-- The loop of `CFOrder` over the digits, and the difference of the lengths if it finds no difference. -/
def orderDigits : List ℕ → List ℕ → Int
  | d :: l, e :: m => if d ≠ e then d - e else orderDigits l m
  | l, m => l.length - m.length

/-- `CFOrder`: it compares the absolute values. -/
def cfOrder (f1 f2 : CFloat) : Int :=
  let diff := f1.exp - f2.exp
  if diff = 0 then orderDigits f1.mant f2.mant else diff

def adder (a b : Int) : Int := a + b

def suber (a b : Int) : Int := a - b

/-- The digit at a position, or 0 where the number has none. -/
def CFloat.digitAt (f : CFloat) (pos : Int) : ℕ :=
  if f.exp - f.len < pos ∧ pos ≤ f.exp then f.access (f.exp - pos) else 0

/-- The loop of `CSSum` over the positions from `pos` on, of which there are `n`. -/
def csLoop (arith : Int → Int → Int) (f1 f2 : CFloat) : ℕ → Int → Int → List ℕ → List ℕ
  | 0, _, carry, digits => carry.toNat :: digits
  | n + 1, pos, carry, digits =>
    let carry := arith (carry + f1.digitAt pos) (f2.digitAt pos)
    if carry < 0 then csLoop arith f1 f2 n (pos + 1) (-1) ((carry + 10).toNat :: digits)
    else if 9 < carry then csLoop arith f1 f2 n (pos + 1) 1 ((carry - 10).toNat :: digits)
    else csLoop arith f1 f2 n (pos + 1) 0 (carry.toNat :: digits)

/-- `CSSum`. -/
def csSum (f1 f2 : CFloat) (arith : Int → Int → Int) : CFloat :=
  let farleft := max f1.exp f2.exp
  let farright := min (f1.exp - f1.len) (f2.exp - f2.len)
  cfClean
    { exp := farleft + 1
      sign := f1.sign
      mant := csLoop arith f1 f2 (farleft - farright).toNat (farright + 1) 0 [] }

/-- `CFAdd`. -/
def cfAdd (f1 f2 : CFloat) : CFloat :=
  let signs := f1.sign + 3 * f2.sign
  if signs = -4 ∨ signs = 4 then csSum f1 f2 adder
  else if signs = -3 ∨ signs = 3 then f2
  else if signs = -2 ∨ signs = 2 then
    let ord := cfOrder f1 f2
    if ord < 0 then csSum f2 f1 suber
    else if 0 < ord then csSum f1 f2 suber
    else cfAlloc
  else if signs = -1 ∨ signs = 1 then f1
  else cfAlloc

/-- `CFSub`. -/
def cfSub (f1 f2 : CFloat) : CFloat :=
  let signs := f1.sign + 3 * f2.sign
  if signs = -4 ∨ signs = 4 then
    let ord := cfOrder f1 f2
    if ord < 0 then (csSum f2 f1 suber).negate
    else if 0 < ord then csSum f1 f2 suber
    else cfAlloc
  else if signs = -3 ∨ signs = 3 then f2.negate
  else if signs = -2 ∨ signs = 2 then csSum f1 f2 adder
  else if signs = -1 ∨ signs = 1 then f1
  else cfAlloc

/-- `CFCompare`. -/
def cfCompare (f1 f2 : CFloat) : Int :=
  if f1.sign < f2.sign then -1
  else if f2.sign < f1.sign then 1
  else
    let cmp := cfOrder f1 f2
    if cmp = 0 then 0
    else if 0 < cmp then f1.sign
    else -1 * f1.sign

/-! ### Products -/

/-- The loop of `SDMul` over the digits from the last one on. -/
def sdLoop (plyer : ℕ) : List ℕ → ℕ → List ℕ → List ℕ
  | [], sum, digits => sum % 10 :: digits
  | d :: rest, sum, digits =>
    let sum := sum + d * plyer
    sdLoop plyer rest (sum / 10) (sum % 10 :: digits)

/-- `SDMul` for the digit `plyer` at the position `byexp`. -/
def sdMul (f : CFloat) (plyer : ℕ) (byexp : Int) : CFloat :=
  cfClean { exp := f.exp + byexp, sign := f.sign, mant := sdLoop plyer f.mant.reverse 0 [] }

/-- The loop of `CFMul` over the digits of the second number from the last one on. -/
def mulLoop (f1 : CFloat) : List ℕ → Int → CFloat → CFloat
  | [], _, result => result
  | d :: rest, f2exp, result => mulLoop f1 rest (f2exp + 1) (cfAdd result (sdMul f1 d f2exp))

/-- `CFMul`. -/
def cfMul (f1 f2 : CFloat) : CFloat :=
  let sgn := f1.sign * f2.sign
  if sgn = 0 then cfAlloc
  else { mulLoop f1 f2.mant.reverse (f2.exp - f2.len + 1) cfAlloc with sign := sgn }

end OpenWatcom.Cfloat
