import Formulae.Color
import Formulae.Text.Bytes

/-!
Colors written as hexadecimal digits, with or without a leading `#`.

The number of digits selects a layout: three or six digits for the opaque color,
and one or two more for the opacity. Text of any other form is opaque black. Digits
are counted and looked up by their bytes.
-/

namespace Formulae.Color

/-- The value of a hexadecimal digit of either case. -/
def hexDigit? (c : Char) : Option Nat :=
  if '0' ≤ c ∧ c ≤ '9' then some (c.toNat - '0'.toNat)
  else if 'a' ≤ c ∧ c ≤ 'f' then some (c.toNat - 'a'.toNat + 10)
  else if 'A' ≤ c ∧ c ≤ 'F' then some (c.toNat - 'A'.toNat + 10)
  else none

/-- The number that a run of hexadecimal digits denotes. -/
def ofDigits? (digits : List Char) : Option Nat :=
  digits.foldlM (fun n c => (hexDigit? c).map (16 * n + ·)) 0

/-- Reads a number in base 16. A plus sign may stand before its digits. -/
def number? : List Char → Option Nat
  | [] => none
  | '+' :: c :: cs => ofDigits? (c :: cs)
  | cs => ofDigits? cs

/-- The digit at a byte. -/
def nibble? (digits : List Char) (offset : Nat) : Option Nat :=
  (Text.slice? digits ⟨offset, offset + 1⟩).bind number?

/-- The number in the two bytes at a byte. -/
def byte? (digits : List Char) (offset : Nat) : Option Nat :=
  (Text.slice? digits ⟨offset, offset + 2⟩).bind number?

/-- The component that a number out of 255 stands for. -/
def ofByte (n : Nat) : Float32 := Float32.ofNat n / 255

/-- Reads the components a layout names: a single digit stands for itself doubled. -/
def decode? (digits : List Char) : Option Color :=
  let short (offset : Nat) := (nibble? digits offset).map fun n => ofByte (17 * n)
  let long (offset : Nat) := (byte? digits offset).map ofByte
  match Text.width digits with
  | 3 => return ⟨← short 0, ← short 1, ← short 2, 1⟩
  | 4 => return ⟨← short 0, ← short 1, ← short 2, ← short 3⟩
  | 5 => return ⟨← short 0, ← short 1, ← short 2, ← long 3⟩
  | 6 => return ⟨← long 0, ← long 2, ← long 4, 1⟩
  | 7 => return ⟨← long 0, ← long 2, ← long 4, ← short 6⟩
  | 8 => return ⟨← long 0, ← long 2, ← long 4, ← long 6⟩
  | _ => none

/-- The color a text names; opaque black if it names none. -/
def decode (text : List Char) : Color :=
  let digits := match text with
    | '#' :: digits => digits
    | _ => text
  (decode? digits).getD black

end Formulae.Color
