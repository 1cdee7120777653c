import Embassies.Lib.Buffer
import Embassies.Lib.CString
import Embassies.Lib.Word

/-! `cheesy_snprintf`.

    A format string is the list of its characters up to the NUL, and `ip` is what is left of it. Conversions go through
    buffers on the stack, ten bytes for numbers; writing past the end of one is a fault. The arguments are those of the
    call, in order. A `double` is what `dtoa` prints of it for a number of decimals: its arithmetic is not modelled. -/

namespace Embassies.Utils

/-- A character of the source text. -/
def chr (c : Char) : UInt8 := UInt8.ofNat c.toNat

/-- `NYBBLE_TO_HEX`. -/
def nybbleToHex (n : ℕ) : UInt8 := UInt8.ofNat (if n > 9 then 97 + n - 10 else n + 48)

/-- `c>='0' && c<='9'`. -/
def isDigit (c : UInt8) : Bool := decide (chr '0' ≤ c ∧ c ≤ chr '9')

/-! ### Conversions -/

/-- The loop of `hexstr_min`, from the digit below `digits` down. -/
def hexstrLoop (val : ℕ) (minDigits : ℤ) : ℕ → Bool → Bytes → ℕ → Checked (Bytes × ℕ)
  | 0, _, buf, oi => .ok (buf, oi)
  | digitIndex + 1, begun, buf, oi =>
    let nybbleVal := (val >>> (digitIndex * 4)) &&& 0x0f
    if begun ∨ 0 < nybbleVal ∨ (digitIndex : ℤ) < minDigits then do
      let buf ← writeAt buf oi [nybbleToHex nybbleVal]
      hexstrLoop val minDigits digitIndex true buf (oi + 1)
    else hexstrLoop val minDigits digitIndex false buf oi

/-- `hexstr_min`. -/
def hexstrMin (buf : Bytes) (val : ℕ) (minDigits : ℤ) : Checked Bytes := do
  let (buf, oi) ← hexstrLoop val minDigits 8 false buf 0
  writeAt buf oi [0]

/-- The first loop of `utoa`; the value itself bounds the number of rounds. -/
def utoaCount : ℕ → ℕ → ℕ
  | 0, _ => 0
  | rounds + 1, val => if 0 < val then utoaCount rounds (val / 10) + 1 else 0

/-- The second loop of `utoa`. -/
def utoaLoop (totalDigits : ℕ) : ℕ → ℕ → ℕ → Bytes → Checked Bytes
  | 0, _, _, out => .ok out
  | rounds + 1, val, digits, out =>
    if 0 < val then do
      let out ← writeAt out (totalDigits - digits - 1) [UInt8.ofNat (48 + val % 10)]
      utoaLoop totalDigits rounds (val / 10) (digits + 1) out
    else .ok out

/-- `utoa`. -/
def utoa (out : Bytes) (inVal : ℕ) : Checked Bytes :=
  if inVal = 0 then do
    let out ← writeAt out 0 [chr '0']
    writeAt out 1 [0]
  else do
    let totalDigits := utoaCount inVal inVal
    let out ← utoaLoop totalDigits inVal inVal 0 out
    writeAt out totalDigits [0]

/-- The loop of `str2dec`. -/
def str2decLoop : Bytes → ℕ → ℕ
  | [], val => val
  | c :: p, val => if isDigit c then str2decLoop p (u32 (val * 10) ||| (c.toNat - 48)) else val

/-- `str2dec`. -/
def str2dec (buf : Bytes) : ℤ :=
  match buf with
  | c :: p => if c = chr '-' then int32 (sub32 0 (str2decLoop p 0)) else int32 (str2decLoop buf 0)
  | [] => 0

/-! ### The state of a call -/

/-- `CheesySprintfState`, with the buffer that `op` points into. -/
structure CheesySprintfState where
  ip : Bytes
  formatCode : UInt8
  formatLen : ℕ
  formatN1 : ℤ
  formatN2 : ℤ
  out : Bytes
  op : ℕ
  eop : ℕ

/-- An argument of the call. -/
inductive Arg where
  | int (val : UInt32)
  | uint64 (val : UInt64)
  | double (dtoa : ℤ → Bytes)
  | charp (s : Bytes)

/-- `_cs_done`. -/
def csDone (state : CheesySprintfState) : Prop := state.ip = [] ∨ state.eop ≤ state.op

instance (state : CheesySprintfState) : Decidable (csDone state) := inferInstanceAs (Decidable (_ ∨ _))

/-- `_cs_out`. -/
def csOut (state : CheesySprintfState) (c : UInt8) : Checked CheesySprintfState :=
  if state.op < state.eop then do
    let out ← writeAt state.out state.op [c]
    return { state with out := out, op := state.op + 1 }
  else return state

/-- The loops of `_cs_out_str`. -/
def csOutChars (state : CheesySprintfState) : Bytes → Checked CheesySprintfState
  | [] => .ok state
  | c :: s => do
    let state ← csOut state c
    csOutChars state s

/-- `_cs_out_str`. -/
def csOutStr (state : CheesySprintfState) (s : Bytes) : Checked CheesySprintfState := do
  let minSpace := state.formatN1
  let textLen : ℤ := s.length
  let state ←
    if 0 < minSpace ∧ textLen < minSpace then csOutChars state (List.replicate (minSpace - textLen).toNat (chr ' '))
    else pure state
  csOutChars state s

/-- `_decode_num`; pointers into the format are offsets from `ip`. -/
def decodeNum (ip : Bytes) (begin? end? : Option ℕ) : Checked ℤ :=
  match begin?, end? with
  | none, _ => .ok (-1)
  | some _, none => .error .liteAssert
  | some b, some e => do
    liteAssert (e - b < 20)
    let buf ← writeAt (List.replicate 20 0) 0 (field ip b (e - b))
    let buf ← writeAt buf (e - b) [0]
    return str2dec (cstringAt buf 0)

/-- Where the parts of a format code are. -/
structure FormatEnds where
  formatCode : UInt8
  formatLen : ℕ
  n1End : Option ℕ
  n2 : Option ℕ
  n2End : Option ℕ

/-- The loop of `_cs_parse_format_code`, at the offset `x`. -/
def parseLoop : Bytes → ℕ → Option ℕ → Option ℕ → Checked FormatEnds
  | [], x, n1End, n2 =>
    .ok (if n2.isSome then ⟨0, x, n1End, n2, some x⟩ else ⟨0, x, some x, n2, none⟩)
  | c :: rest, x, n1End, n2 =>
    if isDigit c then parseLoop rest (x + 1) n1End n2
    else if c = chr '.' then do
      liteAssert (n2 = none)
      parseLoop rest (x + 1) (some x) (some (x + 1))
    else .ok (if n2.isSome then ⟨c, x + 1, n1End, n2, some x⟩ else ⟨c, x + 1, some x, n2, none⟩)

/-- `_cs_parse_format_code`. -/
def csParseFormatCode (state : CheesySprintfState) : Checked CheesySprintfState := do
  liteAssert (state.ip.head? = some (chr '%'))
  let ends ← parseLoop state.ip.tail 1 none none
  let formatN1 ← decodeNum state.ip (some 1) ends.n1End
  let formatN2 ← decodeNum state.ip ends.n2 ends.n2End
  return { state with
    formatCode := ends.formatCode, formatLen := ends.formatLen, formatN1 := formatN1, formatN2 := formatN2 }

/-- `state.ip+=state.format_len`. -/
def skipFormat (state : CheesySprintfState) : CheesySprintfState := { state with ip := state.ip.drop state.formatLen }

/-- `char hexbuf[10]`. -/
def hexbuf : Bytes := List.replicate 10 0

/-- A conversion: `OUTS` of what the buffer holds. -/
def outBuf (state : CheesySprintfState) (buf : Checked Bytes) : Checked CheesySprintfState := do
  let buf ← buf
  csOutStr state (cstringAt buf 0)

/-- The `switch` of `cheesy_snprintf`. An argument that is not there, or not of the type that is asked for, is a fault. -/
def csConvert (state : CheesySprintfState) (argp : List Arg) : Checked (CheesySprintfState × List Arg) :=
  if state.formatCode = chr 'x' then
    match argp with
    | .int val :: argp => do
      let state ← outBuf state (hexstrMin hexbuf val.toNat (max 1 state.formatN1))
      return (skipFormat state, argp)
    | _ => .error .outOfRange
  else if state.formatCode = chr 'd' ∨ state.formatCode = chr 'u' then
    match argp with
    | .int val :: argp => do
      let state ← outBuf state (utoa hexbuf val.toNat)
      return (skipFormat state, argp)
    | _ => .error .outOfRange
  else if state.formatCode = chr 'L' then
    match argp with
    | .uint64 val :: argp => do
      let state ← outBuf state (hexstrMin hexbuf (val.toNat / 2 ^ 32) 1)
      let state ← outBuf state (hexstrMin hexbuf (val.toNat % 2 ^ 32) 8)
      return (skipFormat state, argp)
    | _ => .error .outOfRange
  else if state.formatCode = chr 'f' then
    match argp with
    | .double dtoa :: argp => do
      let state ← outBuf state (writeAt (List.replicate 32 0) 0 (dtoa state.formatN2 ++ [0]))
      return (skipFormat state, argp)
    | _ => .error .outOfRange
  else if state.formatCode = chr 's' then
    match argp with
    | .charp s :: argp => do
      let state ← csOutStr state s
      return (skipFormat state, argp)
    | _ => .error .outOfRange
  else if state.formatCode = chr '%' then do
    let state ← csOut state (chr '%')
    return (skipFormat state, argp)
  else do
    -- no understood format: the percent is literal
    let state ← csOut state (chr '%')
    return ({ state with ip := state.ip.tail }, argp)

def csRound (state : CheesySprintfState) (argp : List Arg) : Checked (CheesySprintfState × List Arg) :=
  match state.ip with
  | [] => .ok (state, argp)
  | c :: ip =>
    if c ≠ chr '%' then do
      let state ← csOut state c
      return ({ state with ip := ip }, argp)
    else do
      let state ← csParseFormatCode state
      csConvert state argp

/-- The loop of `cheesy_snprintf`. -/
def csLoop : ℕ → CheesySprintfState → List Arg → Checked CheesySprintfState
  | 0, _, _ => .error .outOfFuel
  | fuel + 1, state, argp =>
    if csDone state then .ok state
    else do
      let (state, argp) ← csRound state argp
      csLoop fuel state argp

/-- `cheesy_snprintf`: the buffer and the number of characters. A round takes at least one character of the format, so as
    many rounds as it has and one more are enough. -/
def cheesySnprintf (out : Bytes) (n : ℤ) (fmt : Bytes) (argp : List Arg) : Checked (Bytes × ℤ) :=
  if n ≤ 0 then .ok (out, 0)
  else do
    let state ← csLoop (fmt.length + 1) ⟨fmt, 0, 0, 0, 0, out, 0, n.toNat⟩ argp
    let numWritten : ℤ := state.op
    let state ← csOut state 0
    let out ← writeAt state.out (n.toNat - 1) [0]
    return (out, numWritten)

end Embassies.Utils
