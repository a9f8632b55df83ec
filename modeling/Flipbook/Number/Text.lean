import Flipbook.Number.Shortest

/-!
# The text of a number

Numbers are written with the fewest digits that read back, without an exponent from `1e-6` up to
below `1e21`. The layout is one record, so that the choice of digits and their arrangement stay
apart.
-/

namespace Flipbook

/-- Where the notation without exponent starts and ends, in digits before the point. -/
structure NumberLayout where
  /-- The greatest number of digits before the point that is written out. -/
  greatest : Int
  /-- The numbers with at most this many digits before the point, a negative count standing for
  zeros behind it, take an exponent. -/
  least : Int

/-- Numbers are written out from `0.000001` up to below a one followed by 21 zeros. -/
def NumberLayout.standard : NumberLayout where
  greatest := 21
  least := -6

namespace NumberLayout

/-- The text of an exponent, always with its sign. -/
def exponentText (e : Int) : String :=
  if e < 0 then s!"e-{e.natAbs}" else s!"e+{e.natAbs}"

/-- Arranges digits in the notation that the layout prescribes for their magnitude. -/
def arrange (layout : NumberLayout) (d : DecimalDigits) : String :=
  let text := String.ofList d.digits
  let count : Int := d.digits.length
  if count ≤ d.point ∧ d.point ≤ layout.greatest then
    text ++ String.ofList (List.replicate (d.point - count).toNat '0')
  else if 0 < d.point ∧ d.point ≤ layout.greatest then
    String.ofList (d.digits.take d.point.toNat) ++ "." ++
      String.ofList (d.digits.drop d.point.toNat)
  else if layout.least < d.point ∧ d.point ≤ 0 then
    "0." ++ String.ofList (List.replicate (-d.point).toNat '0') ++ text
  else
    match d.digits with
    | [c] => String.singleton c ++ exponentText (d.point - 1)
    | c :: rest =>
      String.singleton c ++ "." ++ String.ofList rest ++ exponentText (d.point - 1)
    | [] => exponentText (d.point - 1)

end NumberLayout

namespace Binary64

/-- The text of a number. An integer below `2 ^ 53` has no shorter digits than its own. -/
def text : Binary64 → String
  | finite q =>
    if q.den = 1 ∧ q.num.natAbs < exactBound then toString q.num
    else if q.num < 0 then "-" ++ NumberLayout.standard.arrange (Shortest.ofRat (-q))
    else NumberLayout.standard.arrange (Shortest.ofRat q)
  | infinite true => "-Infinity"
  | infinite false => "Infinity"
  | nan => "NaN"

instance : ToString Binary64 :=
  ⟨text⟩

end Binary64

end Flipbook
