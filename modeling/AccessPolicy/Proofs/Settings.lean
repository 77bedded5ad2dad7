import AccessPolicy.Proofs.Cache.Recency
import AccessPolicy.Proofs.Steps
import AccessPolicy.Settings
import Mathlib.Data.Nat.Digits.Defs

/-!
# Settings — which texts are accepted

A text is read after the blanks around it are gone.  What is left must be a numeral, in one
variable, or one of eight words, in the other.  Both readings are described here by what the text is
made of, and the settings by the readings; what is refused is refused for the first thing that is
wrong.
-/

namespace AccessPolicy

namespace Text

variable {s core before rest : List Char}

/-! ## Blanks -/

/-- The text is `core` between blanks. -/
def Pads (core s : List Char) : Prop :=
  ∃ before after, s = before ++ core ++ after ∧ (∀ c ∈ before, isBlank c) ∧ ∀ c ∈ after, isBlank c

end Text

namespace Settings

open Text

variable {text : String} {v : Nat} {flag : Bool}

/-! ## Readings -/

/-- The value of a list of decimal digits. -/
def digitsValue (ds : List Char) : Nat :=
  Nat.ofDigits 10 (ds.map fun c => c.toNat - '0'.toNat).reverse

/-- Between blanks, the text has an optional plus sign and then digits, at least one, of this
value. -/
def IsNumeral (text : String) (v : Nat) : Prop :=
  ∃ sign ds, Pads (sign ++ ds) text.toList ∧ (sign = [] ∨ sign = ['+']) ∧ ds ≠ [] ∧
    (∀ c ∈ ds, c.isDigit = true) ∧ v = digitsValue ds

variable {lookup : String → Option String}

/-- The capacity that the variable asks for. -/
def AsksCapacity (lookup : String → Option String) (v : Nat) : Prop :=
  (lookup capacityVariable = none ∧ v = 128) ∨
    ∃ text, lookup capacityVariable = some text ∧ IsNumeral text v ∧ v < 2 ^ 64

theorem AsksCapacity.lt (h : AsksCapacity lookup v) : v < 2 ^ 64 := by
  rcases h with ⟨-, rfl⟩ | ⟨text, -, -, hlt⟩
  · decide
  · exact hlt

end Settings

end AccessPolicy
