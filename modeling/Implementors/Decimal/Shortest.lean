import Implementors.Decimal

/-! The shortest decimal that reads back as a given binary number. A finite number is
`m * 2 ^ q`; the reals that round to it form an interval, whose ends belong to it iff `m` is even.
The answer is the point of that interval on the coarsest decimal grid that has one, and of two
such points the nearer. -/
namespace Implementors.Decimal

/-- A positive binary number with the interval that rounds to it, all in units of `2 ^ unit`. -/
structure Interval where
  low : Nat
  value : Nat
  high : Nat
  unit : Int
  closed : Bool

/-- `m * 2 ^ q` with its neighbours; `isTight` says that the neighbour below is half as far. -/
def Interval.around (m : Nat) (q : Int) (isTight : Bool) : Interval :=
  ⟨4 * m - (if isTight then 1 else 2), 4 * m, 4 * m + 2, q - 2, m % 2 == 0⟩

/-- The grid of multiples of `10 ^ k` beside the units of an interval: a grid point `c` and a
number `x` of units are compared as `c * step` and `x * scale`. -/
structure Grid where
  step : Nat
  scale : Nat

def Grid.of (k unit : Int) : Grid :=
  ⟨Nat.pow 10 k.toNat <<< (-unit).toNat, Nat.pow 10 (-k).toNat <<< unit.toNat⟩

def Interval.contains (i : Interval) (g : Grid) (c : Nat) : Bool :=
  let x := c * g.step
  let low := i.low * g.scale
  let high := i.high * g.scale
  0 < c && (if i.closed then low ≤ x && x ≤ high else low < x && x < high)

/-- The grid point of the interval nearest to its value, if there is one. -/
def Interval.nearest? (i : Interval) (g : Grid) : Option Nat :=
  let v := i.value * g.scale
  let below := v / g.step
  let above := below + 1
  match i.contains g below, i.contains g above with
  | false, false => none
  | true, false => some below
  | false, true => some above
  | true, true =>
    let down := v - below * g.step
    let up := above * g.step - v
    if down < up || (down == up && below % 2 == 0) then some below else some above

/-- Exponents of the grids that are tried, the coarsest first. -/
def gridExponents : List Int := (List.range 700).map fun n : Nat => (309 : Int) - n

def Interval.shortest (i : Interval) : Nat × Int :=
  (gridExponents.findSome? fun k => (i.nearest? (.of k i.unit)).map (·, k)).getD (0, 0)

/-- The shortest decimal of a finite number. -/
def shortest (f : Float) : Decimal :=
  let bits := f.toBits.toNat
  let negative := bits >>> 63 == 1
  let field : Nat := (bits >>> 52) % (1 <<< 11)
  let fraction : Nat := bits % (1 <<< 52)
  if field == 0 && fraction == 0 then ⟨negative, 0, 0⟩
  else
    let interval :=
      if field == 0 then Interval.around fraction (-1074) false
      else Interval.around ((1 <<< 52) + fraction) ((field : Int) - 1075) (fraction == 0 && field > 1)
    let (digits, exponent) := interval.shortest
    ⟨negative, digits, exponent⟩

end Implementors.Decimal
