import ExprBackend.Number.Class

/-! # Logarithm and exponential

The natural logarithm and the exponential of double precision numbers, as
polynomials on a reduced argument. The order of the operations and the places
where a product and a sum are rounded together are part of the definition: they
decide the last digit of a power with a fractional exponent.
-/

namespace ExprBackend.Number

namespace Logarithm

/-- The logarithm of two, up to its lower part. -/
def twoHigh : Float := 6.93147180369123816490e-01

def twoLow : Float := 1.90821492927058770002e-10

/-- The terms of the series with odd number, for the second and the fourth power of `s`. -/
def oddTerms (square fourth : Float) : Float :=
  square * (6.666666666666735130e-01 + fourth * (2.857142874366239149e-01
    + fourth * (1.818357216161805012e-01 + fourth * 1.479819860511658591e-01)))

def evenTerms (fourth : Float) : Float :=
  fourth * (3.999999999940941908e-01 + fourth * (2.222219843214978396e-01
    + fourth * 1.531383769920937332e-01))

/-- The logarithm of `(1 + f) * 2 ^ k`. -/
def reduced (f k : Float) : Float :=
  let s := f / (2 + f)
  let square := s * s
  let fourth := square * square
  let series := oddTerms square fourth + evenTerms fourth
  let half := 0.5 * f * f
  k * twoHigh - ((half - (s * (half + series) + k * twoLow)) - f)

/-- The significand bits of a number, read as a number from one half up to one. -/
def fraction (x : Float) : Float :=
  Float.ofBits ((x.toBits &&& 0xFFFFFFFFFFFFF) ||| 0x3FE0000000000000)

/-- The exponent bits of a number, read as the exponent that belongs to `fraction`. -/
def exponent (x : Float) : Float := (x.toBits >>> 52 &&& 0x7FF).toFloat - 1022

end Logarithm

/-- The natural logarithm of a positive finite number. A subnormal number is taken for the number
with the same bits and a leading one. -/
def logarithm (x : Float) : Float :=
  let fraction := Logarithm.fraction x
  let exponent := Logarithm.exponent x
  if fraction ≤ 7.07106781186547524401e-01 then
    Logarithm.reduced (2 * fraction - 1) (exponent - 1)
  else Logarithm.reduced (fraction - 1) exponent

namespace Exponential

def nearest (x : Float) : Float := (x + 6755399441055744.0) - 6755399441055744.0

/-- The coefficients of the series of the exponential, from the highest power down. -/
def coefficients : List Float :=
  [1.9841269841269841270e-4, 1.3888888888888888889e-3, 8.3333333333333333333e-3,
    4.1666666666666666667e-2, 1.6666666666666666667e-1, 0.5, 1.0]

/-- The exponential of a small number, less one. -/
def small (x : Float) : Float :=
  x * coefficients.foldl (fun sum c => fused sum x c) 2.4801587301587301587e-5

/-- From `e ^ x - 1` to `e ^ (2 * x) - 1`. -/
def double (y : Float) : Float := y * (y + 2)

end Exponential

/-- The exponential of a number of moderate size. The argument is reduced by a multiple of the
logarithm of two and divided by sixteen; the result of the series is squared four times. -/
def exponential (x : Float) : Float :=
  let exponent := Exponential.nearest (x * 1.4426950408889634073599246810018920)
  let rest := fused (-exponent) 0.69314718055966295651160180568695068359375 x
  let rest := fused (-exponent) 0.28235290563031577122588448175013436025525412068e-12 rest
  let y := Exponential.small (rest * 0.0625)
  let y := Exponential.double (Exponential.double (Exponential.double y))
  (fused y (y + 2) 1).scaleB exponent.toInt64.toInt

end ExprBackend.Number
