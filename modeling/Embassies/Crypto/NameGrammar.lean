import Embassies.Crypto.DomainName
import Mathlib.Data.List.TakeWhile

/-! Which strings `checkDomainName` accepts.

    The grammar is that of the source's comment. The check stores the -1 of `checkLabel` in a byte, so that any 255
    characters pass for a label where none starts, and one such character leads it out of the string. A label may have
    as many characters as a byte can count. -/

namespace Embassies.Crypto.DomainName

open List Throwing

/-- `<label>`: a letter, then letters, digits and hyphens, but no hyphen at the end. -/
def isLabel (l : Bytes) : Bool :=
  l.head?.any isLetter && l.getLast?.any isLetterDigit && l.all isLetterDigitHyphen

/-- A label of at most 63 characters. -/
def Proper (l : Bytes) : Prop := isLabel l = true ∧ l.length ≤ 63

/-- The letters, digits and hyphens at the front. -/
def front (r : Bytes) : Bytes := r.takeWhile isLetterDigitHyphen

variable {a r t q : Bytes} {Q : Bytes → Prop}

/-! ### Pieces -/

end Embassies.Crypto.DomainName
