/-!
# Doubles, exactly

The arithmetic of `Float` is the hardware's. The questions here are about the *value* of a
double and are answered exactly, on the integers `m` and `e` of `± m · 2 ^ e`: its integer
part, its remainder by another double, its low 32 bits.
-/

namespace Minifier.Double

open Float.Model (Format UnpackedFloat)
open Float.Model.UnpackedFloat (Sign)

/-- The parts of a double: sign, mantissa and exponent, or the name of a special value. -/
def parts (x : Float) : UnpackedFloat := x.toModel.unpack

/-- The double nearest to `± m · 2 ^ e`. -/
def ofParts (sign : Sign) (m : Nat) (e : Int) : Float :=
  if m = 0 then .ofModel (.pack (.zero sign))
  else .ofModel (.pack (UnpackedFloat.round Format.binary64 sign m e))

/-- Not a number. -/
def nan : Float := 0.0 / 0.0

/-- Positive infinity. -/
def infinity : Float := 1.0 / 0.0

/-- The sign bit of a number is set. Zero has a sign too; what is not a number has none. -/
def isNegative (x : Float) : Bool :=
  match parts x with
  | .infinity s | .zero s | .finite s _ _ _ => s == .negative
  | .notANumber => false

/-- `m · 2 ^ e` without its fraction. -/
def wholePart (m : Nat) (e : Int) : Nat :=
  match e with
  | .ofNat k => m <<< k
  | .negSucc k => m >>> (k + 1)

/-- The integer part of a finite double, toward zero. -/
def truncate? (x : Float) : Option Int :=
  match parts x with
  | .infinity _ | .notANumber => none
  | .zero _ => some 0
  | .finite s m e _ => some (s.apply (wholePart m e))

/-- The integer that a finite double is, if it is one. -/
def integer? (x : Float) : Option Int :=
  match parts x with
  | .infinity _ | .notANumber => none
  | .zero _ => some 0
  | .finite s m e _ =>
    match e with
    | .ofNat k => some (s.apply (m <<< k))
    | .negSucc k =>
      if m % (1 <<< (k + 1)) = 0 then some (s.apply (m >>> (k + 1))) else none

/-- The remainder of the division that rounds its quotient toward zero. It has the sign of the
dividend, and is exact: both operands are multiples of the smaller power of two. -/
def remainder (x y : Float) : Float :=
  match parts x, parts y with
  | .notANumber, _ | _, .notANumber | .infinity _, _ | _, .zero _ => nan
  | .zero _, _ | _, .infinity _ => x
  | .finite s m e _, .finite _ n f _ =>
    let low := min e f
    ofParts s ((m <<< (e - low).toNat) % (n <<< (f - low).toNat)) low

/-- The integer part of a double modulo `2 ^ 32`; zero for what is not finite. -/
def word32 (x : Float) : UInt32 :=
  match truncate? x with
  | some i => UInt32.ofNat (i.emod 0x100000000).toNat
  | none => 0

/-- The integer that a 32-bit word stands for in two's complement. -/
def signed (w : UInt32) : Int :=
  if w.toNat < 0x80000000 then w.toNat else w.toNat - 0x100000000

end Minifier.Double
