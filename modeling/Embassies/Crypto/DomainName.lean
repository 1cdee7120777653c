import Embassies.Lib.Buffer
import Embassies.Lib.Throwing
import Embassies.Lib.Word

/-! Domain names: `DomainName.cpp`.

    A name is kept as a dotted string that ends with NUL, with the size of its wire form and a count of
    labels. It comes from a string, which must be letters, digits and hyphens, or from wire bytes, which
    are copied as they are. The array has 255 bytes. Only what has been written of it is modelled: to read
    more of it is a fault, like to read or write outside of it. -/

namespace Embassies.Crypto

/-- `CryptoException::ExceptionType`. -/
inductive ExceptionType where | badInput | outOfMemory | bufferOverflow | integerOverflow
  deriving DecidableEq, Repr

/-- `CryptoException`. -/
structure CryptoException where
  type : ExceptionType
  str : String
  deriving DecidableEq, Repr

/-- The result of code that can throw. -/
abbrev Outcome (α : Type) := Throwing CryptoException α

/-- `Throw(CryptoException::BAD_INPUT, str)`. -/
def badInput {α : Type} (str : String) : Outcome α := .error (.thrown ⟨.badInput, str⟩)

/-- An access outside of an array. -/
def outOfRange {α : Type} : Outcome α := .error (.fault .outOfRange)

def byteAt (b : Bytes) (i : ℕ) : Outcome UInt8 :=
  match b[i]? with
  | some c => pure c
  | none => outOfRange

def bytesIn (b : Bytes) (off len : ℕ) : Outcome Bytes :=
  if off + len ≤ b.length then pure (field b off len) else outOfRange

/-- `lite_strlen(s)`. -/
def liteStrlen : Bytes → Outcome ℕ
  | [] => outOfRange
  | c :: s => if c = 0 then pure 0 else do
      let l ← liteStrlen s
      pure (l + 1)

/-- `lite_strnlen(s, max)`, which looks at a character before it compares with `max`. -/
def liteStrnlen : Bytes → (max : ℕ) → Outcome ℕ
  | [], _ => outOfRange
  | _ :: _, 0 => pure 0
  | c :: s, max + 1 => if c = 0 then pure 0 else do
      let l ← liteStrnlen s max
      pure (l + 1)

/-- The characters with a meaning in names. -/
def charDot : UInt8 := 46

def charSpace : UInt8 := 32

def charStar : UInt8 := 42

/-- `isLetter(c)`. -/
def isLetter (c : UInt8) : Bool := (97 ≤ c && c ≤ 122) || (65 ≤ c && c ≤ 90)

/-- `isLetterDigit(c)`. -/
def isLetterDigit (c : UInt8) : Bool := isLetter c || (48 ≤ c && c ≤ 57)

/-- `isLetterDigitHyphen(c)`. -/
def isLetterDigitHyphen (c : UInt8) : Bool := isLetterDigit c || c == 45

/-- `toLower(c)`. -/
def toLower (c : UInt8) : UInt8 := if 65 ≤ c && c ≤ 90 then c + 32 else c

/-- `DomainName`, with the part of `nameBytes` that has been written. -/
structure DomainName where
  nameBytes : Bytes
  len : ℕ
  numLabels : ℕ
  deriving DecidableEq, Repr

namespace DomainName

/-- `MAX_DNS_NAME_LEN`. -/
def maxDnsNameLen : ℕ := 255

/-! ### From wire bytes -/

/-- The loop of the wire constructor: the labels so far, each with a dot, are as long as their wire form. -/
def wireLoop (dnsbuffer : Bytes) (size : ℕ) : (fuel : ℕ) → (nameBytes : Bytes) → (numLabels : ℕ) → Outcome DomainName
  | 0, _, _ => .error (.fault .outOfFuel)
  | fuel + 1, nameBytes, numLabels =>
    let len := nameBytes.length
    if len < min maxDnsNameLen size then do
      let labelLen ← UInt8.toNat <$> byteAt dnsbuffer len
      if size < len + labelLen + 1 then badInput "DomainName exceeded bounds" else do
      let label ← bytesIn dnsbuffer (len + 1) labelLen
      if labelLen = 0 then
        -- the root label
        if len = 0 then pure ⟨[charSpace, 0], 1, numLabels⟩ else pure ⟨nameBytes.dropLast ++ [0], len + 1, numLabels⟩
      else if maxDnsNameLen ≤ len + labelLen then outOfRange
      else
        let counted := ¬(labelLen = 1 ∧ len + 1 < size ∧ label = [charStar])
        wireLoop dnsbuffer size fuel (nameBytes ++ label ++ [charDot]) (if counted then numLabels + 1 else numLabels)
    else badInput "DomainName badly formatted or too long"

/-- `DomainName(dnsbuffer, size)`. -/
def ofWire (dnsbuffer : Bytes) (size : ℕ) : Outcome DomainName :=
  if size = 0 then badInput "DomainName too small" else wireLoop dnsbuffer size (maxDnsNameLen + 1) [] 0

/-! ### From a string -/

/-- The loop of `checkLabel`, for the characters that are left. -/
def checkLabelLoop (name : Bytes) (start : ℕ) : (left : ℕ) → (labelLen : ℕ) → Outcome ℕ
  | 0, labelLen => pure labelLen
  | left + 1, labelLen => do
    let c ← byteAt name (start + labelLen)
    if isLetterDigitHyphen c then checkLabelLoop name start left (labelLen + 1) else pure labelLen

/-- `checkLabel(name, start, len)`. -/
def checkLabel (name : Bytes) (start len : ℕ) : Outcome ℤ :=
  if len = 0 then pure (-1) else do
    let first ← byteAt name start
    if isLetter first = false then pure (-1) else do
    let labelLen ← checkLabelLoop name start (len - 1) 1
    let last ← byteAt name (start + labelLen - 1)
    pure (if isLetterDigit last then labelLen else -1)

/-- `checkSubdomain(name, start, len)`: the result of `checkLabel` is cut to a byte, so it is never -1. -/
def checkSubdomain (name : Bytes) : (fuel : ℕ) → (start len : ℕ) → Outcome ℤ
  | 0, _, _ => .error (.fault .outOfFuel)
  | fuel + 1, start, len =>
    if len = 0 then pure (-1) else do
    let checked ← checkLabel name start len
    let labelLen := (checked % 256).toNat
    if labelLen = len then pure len
    else if sub32 len 2 < labelLen then pure (-1)   -- wraps if len is 1
    else do
      let c ← byteAt name (start + labelLen)
      if c = charDot then do
        let rest ← checkSubdomain name fuel (start + labelLen + 1) (sub32 (sub32 len labelLen) 1)
        pure (if rest ≠ -1 then len else -1)
      else pure (-1)

/-- `checkDomainName(name, len)`. -/
def checkDomainName (name : Bytes) (len : ℕ) : Outcome Bool :=
  if len = 0 then pure false else do
    let first ← byteAt name 0
    if len = 1 ∧ first = charSpace then pure true else do
    let checked ← checkSubdomain name (name.length + 1) 0 len
    pure (checked = len)

/-- The missing terminator, which is looked for only if the length is the size. -/
def checkTerminator (name : Bytes) (nameLength size : ℕ) : Outcome Unit :=
  if nameLength = size then do
    let last ← byteAt name (nameLength - 1)
    if last ≠ 0 then badInput "DomainName missing a null terminator" else pure ()
  else pure ()

/-- The copy of a string, whose length has been cut to a byte. -/
def copyString (name : Bytes) (nameLength : ℕ) : Outcome DomainName :=
  if nameLength = maxDnsNameLen then outOfRange   -- the index of the loop wraps before it ends
  else do
    let chars ← bytesIn name 0 (nameLength + 1)
    let nameBytes := chars.map toLower
    if nameLength = 1 ∧ chars.head? = some charSpace then pure ⟨nameBytes, 1, 0⟩
    else pure ⟨nameBytes, nameLength + 2, (chars.take nameLength).count charDot + 1⟩

/-- `parse(name, len)`, the constructor from a string. -/
def parse (name : Bytes) (size : ℕ) : Outcome DomainName := do
  let ok ← checkDomainName name (sub32 size 1)
  if ok = false then badInput "Null DomainName" else do
  let l ← liteStrnlen name size
  let nameLength := l % 256
  if nameLength = 0 then badInput "Bad length for DomainName" else do
  checkTerminator name nameLength size
  copyString name nameLength

/-- `DomainName(name)`: a name is copied through its string. -/
def copy (name : DomainName) : Outcome DomainName := do
  let l ← liteStrlen name.nameBytes
  parse name.nameBytes (l + 1)

/-! ### To wire bytes -/

def put (buffer : Bytes) (off : ℕ) (x : Bytes) : Outcome Bytes := Throwing.lift (writeAt buffer off x)

/-- The loop of `serialize` over the characters, from the `i`-th on. The length of a label is written when the
    label ends. -/
def serializeLoop (off : ℕ) : Bytes → (i labelPos labelLen : ℕ) → Bytes → Outcome Bytes
  | [], _, labelPos, labelLen, buffer => put buffer (off + labelPos) [UInt8.ofNat labelLen]
  | c :: cs, i, labelPos, labelLen, buffer =>
    if c = charDot then do
      let buffer ← put buffer (off + labelPos) [UInt8.ofNat labelLen]
      serializeLoop off cs (i + 1) (i + 1) 0 buffer
    else if c = charSpace then do   -- taken for the root
      let buffer ← put buffer (off + i) [0]
      serializeLoop off cs (i + 1) labelPos labelLen buffer
    else do
      let buffer ← put buffer (off + i + 1) [toLower c]
      serializeLoop off cs (i + 1) labelPos (labelLen + 1) buffer

/-- `serialize(buffer)`, at an offset. -/
def serialize (d : DomainName) (buffer : Bytes) (off : ℕ) : Outcome Bytes := do
  let l ← liteStrlen d.nameBytes
  let buffer ← serializeLoop off (d.nameBytes.take l) 0 0 0 buffer
  put buffer (off + d.len - 1) [0]

/-! ### Comparison -/

/-- The loop of `suffix`, with one more than `parentPos` and `pos`. -/
def suffixLoop (child parent : Bytes) : (parentEnd childEnd : ℕ) → Outcome Bool
  | 0, 0 => pure true
  | 0, pos + 1 => do
    let c ← byteAt child pos
    pure (c == charDot)
  | _ + 1, 0 => outOfRange   -- nameBytes[-1]
  | parentPos + 1, pos + 1 => do
    let c ← byteAt child pos
    let p ← byteAt parent parentPos
    if c ≠ p then pure false else suffixLoop child parent parentPos pos

/-- `suffix(parent)`. -/
def suffix (child parent : DomainName) : Outcome Bool :=
  if ¬parent.len ≤ child.len then pure false
  else if parent.len = 1 then pure true   -- root
  else do
    let parentEnd ← liteStrlen parent.nameBytes
    let childEnd ← liteStrlen child.nameBytes
    suffixLoop child.nameBytes parent.nameBytes parentEnd childEnd

/-- The loop of `operator==`, for the characters that are left. -/
def eqLoop (b1 b2 : Bytes) : (left : ℕ) → (i : ℕ) → Outcome Bool
  | 0, _ => pure true
  | left + 1, i => do
    let c1 ← byteAt b1 i
    let c2 ← byteAt b2 i
    if c1 ≠ c2 then pure false else eqLoop b1 b2 left (i + 1)

/-- `operator==(d1, d2)`. -/
def eq (d1 d2 : DomainName) : Outcome Bool :=
  if d1.len ≠ d2.len ∨ d1.numLabels ≠ d2.numLabels then pure false
  else do
    let l ← liteStrlen d1.nameBytes
    eqLoop d1.nameBytes d2.nameBytes l 0

end DomainName

end Embassies.Crypto
