import Embassies.Utils.SnprintfConversions

/-! What `cheesy_snprintf` prints.

    A format string is a list of items, and what is asked for is the text of the items in order. What comes out is the text
    with each width as `str2dec` reads it, which puts a digit in with `|` where it should add it: a width is read as it is
    written if no digit meets a set bit of ten times the number before it. A text that fills the buffer is counted with
    the character that the NUL replaces. A decimal number of ten digits overruns the buffer of its conversion. -/

namespace Embassies.Utils

open Checked List Nat

/-! ### Items -/

def decimalValue (digits : List (Fin 10)) : ℕ := digits.foldl (fun v d => v * 10 + d.val) 0

def digitChars (digits : List (Fin 10)) : Bytes := digits.map fun d => digitChar d.val

/-- A minimum width as it is written in a format string. -/
structure Width where
  digits : List (Fin 10)
  length_le : digits.length ≤ 18
  value_lt : decimalValue digits < 2 ^ 31

namespace Width

def value (w : Width) : ℕ := decimalValue w.digits

def chars (w : Width) : Bytes := digitChars w.digits

/-- The width that the format code is taken to have. -/
def read (w : Width) : ℕ := (str2dec w.chars).toNat

/-- No digit has a bit in common with ten times the number `v` before it. -/
def BitFree : ℕ → List (Fin 10) → Prop
  | _, [] => True
  | v, d :: digits => v * 10 &&& d.val = 0 ∧ BitFree (v * 10 + d.val) digits

instance : ∀ v digits, Decidable (BitFree v digits)
  | _, [] => .isTrue trivial
  | v, d :: digits => @instDecidableAnd _ _ _ (instDecidableBitFree (v * 10 + d.val) digits)

end Width

/-- A conversion with its argument. -/
inductive Conversion where
  | hex (val : UInt32)
  | dec (unsigned : Bool) (val : UInt32)
  | str (s : Bytes) (noNul : 0 ∉ s)
  | percent

namespace Conversion

def code : Conversion → UInt8
  | hex _ => chr 'x'
  | dec unsigned _ => if unsigned then chr 'u' else chr 'd'
  | str _ _ => chr 's'
  | percent => chr '%'

def args : Conversion → List Arg
  | hex val => [.int val]
  | dec _ val => [.int val]
  | str s _ => [.charp s]
  | percent => []

/-- The converted argument, padded to a width. A percent has no argument. -/
def text (width : ℕ) : Conversion → Bytes
  | hex val => padLeft (chr ' ') width (padLeft (chr '0') (min width 8) (numeral 16 val.toNat))
  | dec _ val => padLeft (chr ' ') width (numeral 10 val.toNat)
  | str s _ => padLeft (chr ' ') width s
  | percent => [chr '%']

/-- A decimal argument has at most nine digits. -/
def Fits : Conversion → Prop
  | dec _ val => val.toNat < 10 ^ 9
  | _ => True

end Conversion

/-- A part of a format string. -/
inductive Item where
  | literal (c : UInt8) (noNul : c ≠ 0) (noPercent : c ≠ chr '%')
  | conversion (width : Width) (conv : Conversion)

namespace Item

def format : Item → Bytes
  | literal c _ _ => [c]
  | conversion width conv => chr '%' :: (width.chars ++ [conv.code])

def args : Item → List Arg
  | literal _ _ _ => []
  | conversion _ conv => conv.args

/-- What is printed if widths are read in that way. -/
def text (read : Width → ℕ) : Item → Bytes
  | literal c _ _ => [c]
  | conversion width conv => conv.text (read width)

def Fits : Item → Prop
  | literal _ _ _ => True
  | conversion _ conv => conv.Fits

/-- The width does not exceed what is printed without it, or its digits can be put in with `|`. -/
def Padded : Item → Prop
  | literal _ _ _ => True
  | conversion _ .percent => True
  | conversion width conv => width.value ≤ (conv.text 0).length ∨ Width.BitFree 0 width.digits

end Item

def formatOf (items : List Item) : Bytes := items.flatMap Item.format

def argsOf (items : List Item) : List Arg := items.flatMap Item.args

def textOf (read : Width → ℕ) (items : List Item) : Bytes := items.flatMap (Item.text read)

/-! ### Output -/

/-- The state when `t` has been printed to a buffer with room for `n` characters: what does not fit is dropped. -/
def printed (state : CheesySprintfState) (out : Bytes) (n : ℕ) (t : Bytes) : CheesySprintfState :=
  { state with out := splice out 0 (t.take n), op := min t.length n, eop := n }

section

variable {state : CheesySprintfState} {out : Bytes} {n : ℕ}

lemma csOut_printed (hn : n ≤ out.length) (t : Bytes) (c : UInt8) :
    csOut (printed state out n t) c = .ok (printed state out n (t ++ [c])) := by
  rw [csOut, printed]
  dsimp only
  rcases lt_or_ge t.length n with hlt | hge
  · have hfits : 0 + t.length ≤ out.length := by omega
    have hjoin := splice_splice [c] hfits
    rw [zero_add] at hjoin
    rw [if_pos (by omega), min_eq_left hlt.le, take_of_length_le hlt.le, writeAt_of_fits, hjoin, ok_bind,
      printed, take_of_length_le, length_append, length_singleton, min_eq_left hlt, pure_eq_ok]
    · rw [length_append, length_singleton]
      exact hlt
    · rw [length_splice hfits, length_singleton]
      omega
  · rw [if_neg (by omega), printed, take_append_of_le_length hge, length_append, min_eq_right hge,
      min_eq_right (by omega), pure_eq_ok]

lemma csOutChars_printed (hn : n ≤ out.length) : ∀ (s t : Bytes),
    csOutChars (printed state out n t) s = .ok (printed state out n (t ++ s))
  | [], t => by rw [csOutChars, append_nil]
  | c :: s, t => by
    rw [csOutChars, csOut_printed hn, ok_bind, csOutChars_printed hn s, append_assoc, singleton_append]

lemma csOutStr_printed (state : CheesySprintfState) (hn : n ≤ out.length) (t s : Bytes) : csOutStr (printed state out n t) s =
    .ok (printed state out n (t ++ padLeft (chr ' ') state.formatN1.toNat s)) := by
  rw [csOutStr]
  simp only
  have hwidth : (printed state out n t).formatN1 = state.formatN1 := rfl
  rw [hwidth]
  split
  case isTrue h =>
    have hpad : (state.formatN1 - s.length).toNat = state.formatN1.toNat - s.length := by omega
    rw [csOutChars_printed hn, ok_bind, csOutChars_printed hn, hpad, padLeft, append_assoc]
  case isFalse h =>
    have hpad : state.formatN1.toNat - s.length = 0 := by omega
    rw [pure_eq_ok, ok_bind, csOutChars_printed hn, padLeft, hpad, replicate_zero, nil_append]

end

/-! ### Widths -/

lemma isDigit_digitChar : ∀ d : Fin 10, isDigit (digitChar d.val) = true := by decide

lemma toNat_digitChar : ∀ d : Fin 10, (digitChar d.val).toNat - 48 = d.val := by decide

lemma str2decLoop_le : ∀ (digits : List (Fin 10)) (v v' : ℕ), v ≤ v' →
    str2decLoop (digitChars digits) v ≤ digits.foldl (fun v d => v * 10 + d.val) v'
  | [], _, _, h => h
  | d :: digits, v, v', h => by
    rw [digitChars, map_cons, str2decLoop, if_pos (isDigit_digitChar d), toNat_digitChar, foldl_cons]
    apply str2decLoop_le digits
    have hor := or_add_and (u32 (v * 10)) d.val
    have hmod : u32 (v * 10) ≤ v * 10 := mod_le _ _
    omega

lemma Width.str2dec_eq_loop (w : Width) : str2dec w.chars = str2decLoop w.chars 0 := by
  have hle : str2decLoop w.chars 0 ≤ w.value := str2decLoop_le w.digits 0 0 (le_refl 0)
  have hlt : w.value < 2 ^ 31 := w.value_lt
  have hint : int32 (str2decLoop w.chars 0) = str2decLoop w.chars 0 := if_pos (by omega)
  unfold str2dec
  split
  case h_1 c p hchars =>
    have hminus : c ≠ chr '-' := by
      have hdigit : isDigit c = true := by
        have hmem : c ∈ w.chars := hchars ▸ mem_cons_self
        obtain ⟨d, -, rfl⟩ := mem_map.mp hmem
        exact isDigit_digitChar d
      rintro rfl
      exact absurd hdigit (by decide)
    rw [if_neg hminus, hint]
  case h_2 hchars => rw [hchars, str2decLoop, cast_zero]

lemma Width.str2dec_eq (w : Width) : str2dec w.chars = w.read := by
  rw [Width.read, w.str2dec_eq_loop, Int.toNat_natCast]

lemma foldl_lt_foldl : ∀ (digits : List (Fin 10)) {v v' : ℕ}, v < v' →
    digits.foldl (fun v d => v * 10 + d.val) v < digits.foldl (fun v d => v * 10 + d.val) v'
  | [], _, _, h => h
  | d :: digits, _, _, h => foldl_lt_foldl digits (by dsimp only; omega)

lemma le_foldl : ∀ (digits : List (Fin 10)) (v : ℕ), v ≤ digits.foldl (fun v d => v * 10 + d.val) v
  | [], _ => le_rfl
  | d :: digits, v => (show v ≤ v * 10 + d.val by omega).trans (le_foldl digits _)

/-- A digit that meets a set bit is lost in part, and what is lost is not made good by later digits. -/
lemma str2decLoop_eq_iff : ∀ (digits : List (Fin 10)) (v : ℕ), digits.foldl (fun v d => v * 10 + d.val) v < 2 ^ 31 →
    (str2decLoop (digitChars digits) v = digits.foldl (fun v d => v * 10 + d.val) v ↔ Width.BitFree v digits)
  | [], _, _ => iff_of_true rfl trivial
  | d :: digits, v, hlt => by
    rw [foldl_cons] at hlt
    have hword : v * 10 + d.val < 2 ^ 31 := (le_foldl digits _).trans_lt hlt
    have hmul : u32 (v * 10) = v * 10 := u32_of_lt (by omega)
    have hsum := or_add_and (v * 10) d.val
    rw [digitChars, map_cons, str2decLoop, if_pos (isDigit_digitChar d), toNat_digitChar, foldl_cons, hmul,
      ← digitChars, Width.BitFree]
    by_cases hfree : v * 10 &&& d.val = 0
    · rw [show v * 10 ||| d.val = v * 10 + d.val by omega, str2decLoop_eq_iff digits _ hlt, and_iff_right hfree]
    · refine iff_of_false (fun heq => ?_) fun h => hfree h.1
      have hle := str2decLoop_le digits (v * 10 ||| d.val) _ le_rfl
      have hless := foldl_lt_foldl digits (show v * 10 ||| d.val < v * 10 + d.val by omega)
      omega

lemma Width.read_eq (w : Width) : w.read = str2decLoop w.chars 0 := by
  exact_mod_cast w.str2dec_eq.symm.trans w.str2dec_eq_loop

/-- READ: a width is not read as more than is written, and as what is written exactly if no digit meets a set bit. -/
lemma Width.read_le (w : Width) : w.read ≤ w.value := by
  rw [w.read_eq]
  exact str2decLoop_le w.digits 0 0 le_rfl

lemma Width.read_eq_value_iff (w : Width) : w.read = w.value ↔ BitFree 0 w.digits := by
  rw [w.read_eq]
  exact str2decLoop_eq_iff w.digits 0 w.value_lt

lemma Conversion.text_cases (conv : Conversion) : conv = .percent ∨ conv ≠ .percent ∧ ∀ width,
    (conv.text width).length = max width (conv.text 0).length ∧
      (width ≤ (conv.text 0).length → conv.text width = conv.text 0) := by
  cases conv with
  | percent => exact .inl rfl
  | hex val =>
    refine .inr ⟨by rintro ⟨⟩, fun width => ?_⟩
    simp only [text, padLeft, length_append, length_replicate, Nat.zero_sub, replicate_zero, nil_append, Nat.zero_min]
    refine ⟨by omega, fun hle => ?_⟩
    rw [Nat.sub_eq_zero_of_le (show min width 8 ≤ _ by omega), replicate_zero, nil_append, Nat.zero_add,
      Nat.sub_eq_zero_of_le hle, replicate_zero, nil_append]
  | dec unsigned val =>
    refine .inr ⟨by rintro ⟨⟩, fun width => ?_⟩
    simp only [text, padLeft, length_append, length_replicate, Nat.zero_sub, replicate_zero, nil_append]
    exact ⟨by omega, fun hle => by rw [Nat.sub_eq_zero_of_le hle, replicate_zero, nil_append]⟩
  | str s noNul =>
    refine .inr ⟨by rintro ⟨⟩, fun width => ?_⟩
    simp only [text, padLeft, length_append, length_replicate, Nat.zero_sub, replicate_zero, nil_append]
    exact ⟨by omega, fun hle => by rw [Nat.sub_eq_zero_of_le hle, replicate_zero, nil_append]⟩

/-- ITEM: the text with the width as it is read is not longer than the text that is asked for, and it is that text if it
    is as long, which is so exactly if the item is padded alike. -/
lemma Item.text_cases (item : Item) : (item.text Width.read).length ≤ (item.text Width.value).length ∧
    ((item.text Width.read).length = (item.text Width.value).length → item.Padded) ∧
    (item.Padded → item.text Width.read = item.text Width.value) := by
  cases item with
  | literal c _ _ => exact ⟨le_rfl, fun _ => trivial, fun _ => rfl⟩
  | conversion width conv =>
    have hle := width.read_le
    rcases conv.text_cases with rfl | ⟨hne, htext⟩
    · exact ⟨le_rfl, fun _ => trivial, fun _ => rfl⟩
    have hpadded : (conversion width conv).Padded ↔
        width.value ≤ (conv.text 0).length ∨ Width.BitFree 0 width.digits := by
      cases conv with
      | percent => exact absurd rfl hne
      | hex | dec | str => exact Iff.rfl
    change (conv.text width.read).length ≤ (conv.text width.value).length ∧
      ((conv.text width.read).length = (conv.text width.value).length → _) ∧
      (_ → conv.text width.read = conv.text width.value)
    rw [(htext width.read).1, (htext width.value).1, hpadded]
    refine ⟨by omega, fun hlen => ?_, ?_⟩
    · rw [← width.read_eq_value_iff]
      omega
    · rintro (hshort | hfree)
      · rw [(htext _).2 hshort, (htext _).2 (hle.trans hshort)]
      · rw [width.read_eq_value_iff.mpr hfree]

/-! ### Format codes -/

lemma parseLoop_digits {code : UInt8} (rest : Bytes) (hdigit : isDigit code = false) (hdot : code ≠ chr '.') :
    ∀ (digits : List (Fin 10)) (x : ℕ), parseLoop (digitChars digits ++ code :: rest) x none none =
      .ok ⟨code, x + digits.length + 1, some (x + digits.length), none, none⟩
  | [], x => by simp [digitChars, parseLoop, hdigit, hdot]
  | d :: digits, x => by
    rw [digitChars, map_cons, cons_append, ← digitChars, parseLoop, if_pos (isDigit_digitChar d),
      parseLoop_digits rest hdigit hdot digits (x + 1), length_cons, add_assoc x 1, add_comm 1]

lemma Width.zero_notMem_chars (w : Width) : 0 ∉ w.chars := by
  intro hmem
  obtain ⟨d, -, heq⟩ := mem_map.mp hmem
  have hne : ∀ d : Fin 10, digitChar d.val ≠ 0 := by decide
  exact hne d heq

lemma decodeNum_width (w : Width) (c : UInt8) (rest : Bytes) :
    decodeNum (c :: (w.chars ++ rest)) (some 1) (some (1 + w.digits.length)) = .ok (w.read : ℤ) := by
  have hlen : w.chars.length = w.digits.length := length_map _
  have hle := w.length_le
  have hfield : field (c :: (w.chars ++ rest)) 1 w.digits.length = w.chars := by
    rw [field, drop_succ_cons, drop_zero, ← hlen, take_left]
  have hfits : 0 + w.chars.length ≤ (List.replicate 20 (0 : UInt8)).length := by
    rw [hlen, length_replicate]
    omega
  have hjoin := splice_splice [0] hfits
  rw [hlen, Nat.zero_add] at hjoin
  simp only [decodeNum, Nat.add_sub_cancel_left]
  rw [liteAssert_pos (by omega), ok_bind, hfield, writeAt_of_fits hfits, ok_bind, writeAt_of_fits, hjoin,
    ok_bind, cstringAt_splice w.zero_notMem_chars, w.str2dec_eq, pure_eq_ok]
  rw [length_splice hfits, length_replicate, length_singleton]
  omega

lemma Conversion.code_spec (conv : Conversion) : isDigit conv.code = false ∧ conv.code ≠ chr '.' := by
  have hcodes : ∀ c ∈ [chr 'x', chr 'u', chr 'd', chr 's', chr '%'], isDigit c = false ∧ c ≠ chr '.' := by
    decide +kernel
  apply hcodes
  cases conv with
  | dec unsigned val => cases unsigned <;> simp [Conversion.code]
  | _ => simp [Conversion.code]

lemma Conversion.code_dec (unsigned : Bool) (val : UInt32) : (dec unsigned val).code ≠ chr 'x' ∧
    ((dec unsigned val).code = chr 'd' ∨ (dec unsigned val).code = chr 'u') := by
  have hd : chr 'd' ≠ chr 'x' := by decide
  have hu : chr 'u' ≠ chr 'x' := by decide
  cases unsigned
  · exact ⟨hd, .inl rfl⟩
  · exact ⟨hu, .inr rfl⟩

/-- PARSE: the code, the length of the format code, and the width as it is read. -/
lemma csParseFormatCode_eq (state : CheesySprintfState) (w : Width) (conv : Conversion) (rest : Bytes)
    (hip : state.ip = chr '%' :: (w.chars ++ conv.code :: rest)) : csParseFormatCode state = .ok { state with
      formatCode := conv.code, formatLen := w.digits.length + 2, formatN1 := w.read, formatN2 := -1 } := by
  obtain ⟨hdigit, hdot⟩ := conv.code_spec
  have hloop := parseLoop_digits rest hdigit hdot w.digits 1
  rw [csParseFormatCode, hip, List.head?_cons, liteAssert_pos rfl, ok_bind, tail_cons, Width.chars, hloop,
    ok_bind, ← Width.chars, decodeNum_width, ok_bind, decodeNum, ok_bind, pure_eq_ok,
    show 1 + w.digits.length + 1 = w.digits.length + 2 by omega]

/-! ### One item -/

section

variable {state : CheesySprintfState} {out : Bytes} {n : ℕ} {items : List Item}

lemma padLeft_numeral_one (b k v : ℕ) (c : UInt8) (hb : 1 < b) :
    padLeft c (min (max 1 k) 8) (numeral b v) = padLeft c (min k 8) (numeral b v) := by
  have hlen : 1 ≤ (numeral b v).length := by
    rw [length_numeral hb, numDigits]
    exact le_max_left 1 _
  rw [padLeft, padLeft]
  congr 2
  omega

/-- CONVERSION: it prints its text if its number fits, and overruns the buffer if not. -/
lemma csConvert_eq (state : CheesySprintfState) (hn : n ≤ out.length) (conv : Conversion) (w : ℕ) (t : Bytes)
    (argp : List Arg) (hcode : state.formatCode = conv.code) (hwidth : state.formatN1 = w) :
    (conv.Fits → csConvert (printed state out n t) (conv.args ++ argp) =
      .ok (skipFormat (printed state out n (t ++ conv.text w)), argp)) ∧
    (¬conv.Fits → csConvert (printed state out n t) (conv.args ++ argp) = .error .outOfRange) := by
  have hc : (printed state out n t).formatCode = conv.code := hcode
  have hw : (printed state out n t).formatN1 = w := hwidth
  have hstr := csOutStr_printed state hn t
  rw [hwidth, Int.toNat_natCast] at hstr
  cases conv with
  | hex val =>
    refine ⟨fun _ => ?_, absurd trivial⟩
    obtain ⟨buf, hbuf, htext⟩ := hexstrMin_eq (m := max 1 (w : ℤ)) (le_max_left _ _) val.toNat_lt
    have hmax : (max 1 (w : ℤ)).toNat = max 1 w := by omega
    rw [hmax, padLeft_numeral_one 16 w _ _ (by norm_num)] at htext
    rw [csConvert.eq_def, hc, show (Conversion.hex val).code = chr 'x' from rfl, if_pos rfl, hw]
    simp only [Conversion.args, cons_append, nil_append, outBuf, hbuf, ok_bind, htext, hstr,
      pure_eq_ok, Conversion.text]
  | dec unsigned val =>
    obtain ⟨hx, hd⟩ := Conversion.code_dec unsigned val
    rw [csConvert.eq_def, hc, if_neg hx, if_pos hd]
    constructor
    · intro hfits
      obtain ⟨buf, hbuf, htext⟩ := utoa_eq hfits
      simp only [Conversion.args, cons_append, nil_append, outBuf, hbuf, ok_bind, htext, hstr,
        pure_eq_ok, Conversion.text]
    · intro hfits
      have hbuf := utoa_overrun (not_lt.mp hfits) val.toNat_lt
      simp only [Conversion.args, cons_append, nil_append, outBuf, hbuf, error_bind]
  | str s noNul =>
    refine ⟨fun _ => ?_, absurd trivial⟩
    rw [csConvert.eq_def, hc, show (Conversion.str s noNul).code = chr 's' from rfl, if_neg (by decide),
      if_neg (by decide), if_neg (by decide), if_neg (by decide), if_pos rfl]
    simp only [Conversion.args, cons_append, nil_append, ok_bind, hstr, pure_eq_ok, Conversion.text]
  | percent =>
    refine ⟨fun _ => ?_, absurd trivial⟩
    rw [csConvert.eq_def, hc, show Conversion.percent.code = chr '%' from rfl, if_neg (by decide), if_neg (by decide),
      if_neg (by decide), if_neg (by decide), if_neg (by decide), if_pos rfl, csOut_printed hn, ok_bind,
      pure_eq_ok]
    rfl

/-- The format code that a conversion leaves in the state. -/
def withCode (state : CheesySprintfState) (w : Width) (conv : Conversion) : CheesySprintfState :=
  { state with formatCode := conv.code, formatLen := w.digits.length + 2, formatN1 := w.read, formatN2 := -1 }

lemma csRound_conversion {w : Width} {conv : Conversion} {rest : Bytes} (t : Bytes) (argp : List Arg)
    (hip : state.ip = (Item.conversion w conv).format ++ rest) :
    csRound (printed state out n t) argp = csConvert (printed (withCode state w conv) out n t) argp := by
  have hip' : (printed state out n t).ip = chr '%' :: (w.chars ++ conv.code :: rest) := by
    rw [show (printed state out n t).ip = state.ip from rfl, hip, Item.format, cons_append, append_assoc,
      singleton_append]
  rw [csRound, hip']
  simp only [ne_eq, not_true_eq_false, if_false, csParseFormatCode_eq _ w conv rest hip', ok_bind]
  rfl

lemma csRound_item (hn : n ≤ out.length) (item : Item) (rest t : Bytes) (argp : List Arg)
    (hip : state.ip = item.format ++ rest) :
    (item.Fits → ∃ state', csRound (printed state out n t) (item.args ++ argp) =
      .ok (printed state' out n (t ++ item.text Width.read), argp) ∧ state'.ip = rest) ∧
    (¬item.Fits → csRound (printed state out n t) (item.args ++ argp) = .error .outOfRange) := by
  cases item with
  | literal c noNul noPercent =>
    refine ⟨fun _ => ?_, absurd trivial⟩
    have hip' : (printed state out n t).ip = c :: rest := hip
    refine ⟨{ state with ip := rest }, ?_, rfl⟩
    rw [csRound, hip']
    simp only [if_pos noPercent, csOut_printed hn, ok_bind, pure_eq_ok]
    rfl
  | conversion w conv =>
    rw [csRound_conversion _ _ hip]
    obtain ⟨hok, hoverrun⟩ := csConvert_eq (withCode state w conv) hn conv w.read t argp rfl rfl
    refine ⟨fun hfits => ⟨skipFormat (withCode state w conv), hok hfits, ?_⟩, hoverrun⟩
    have hlen : (chr '%' :: (w.chars ++ [conv.code])).length = w.digits.length + 2 := by
      simp [Width.chars, digitChars]
    show state.ip.drop (w.digits.length + 2) = rest
    rw [hip, Item.format, ← hlen, drop_left]

/-! ### The loop -/

lemma formatOf_cons (item : Item) (items : List Item) : formatOf (item :: items) = item.format ++ formatOf items :=
  flatMap_cons

lemma argsOf_cons (item : Item) (items : List Item) : argsOf (item :: items) = item.args ++ argsOf items := flatMap_cons

lemma textOf_cons (read : Width → ℕ) (item : Item) (items : List Item) :
    textOf read (item :: items) = item.text read ++ textOf read items := flatMap_cons

lemma Item.format_ne_nil (item : Item) : item.format ≠ [] := by
  cases item <;> exact cons_ne_nil _ _

/-- THE LOOP: it stops at a number that does not fit, or when the buffer is full, or after the last item. -/
lemma csLoop_spec (hn : n ≤ out.length) : ∀ (items : List Item) (fuel : ℕ) (state : CheesySprintfState) (t : Bytes),
    state.ip = formatOf items → (formatOf items).length < fuel →
    (csLoop fuel (printed state out n t) (argsOf items) = .error .outOfRange ∧ ∃ item ∈ items, ¬item.Fits) ∨
      ∃ state' t', csLoop fuel (printed state out n t) (argsOf items) = .ok (printed state' out n t') ∧
        t' <+: t ++ textOf Width.read items ∧
        (n ≤ t'.length ∨ t' = t ++ textOf Width.read items ∧ ∀ item ∈ items, item.Fits)
  | items, 0, _, _, _, hfuel => absurd hfuel (not_lt_zero _)
  | items, fuel + 1, state, t, hip, hfuel => by
    rw [csLoop]
    by_cases hfull : n ≤ t.length
    · have hdone : csDone (printed state out n t) := .inr (by
        show n ≤ min t.length n
        omega)
      rw [if_pos hdone]
      exact .inr ⟨state, t, rfl, prefix_append _ _, .inl hfull⟩
    cases items with
    | nil =>
      rw [if_pos (.inl hip)]
      refine .inr ⟨state, t, rfl, prefix_append _ _, .inr ⟨?_, fun item h => absurd h (not_mem_nil)⟩⟩
      rw [textOf, flatMap_nil, append_nil]
    | cons item items =>
      have hgo : ¬csDone (printed state out n t) := by
        rintro (hnil | hend)
        · have hnil' : state.ip = [] := hnil
          rw [hip, formatOf_cons] at hnil'
          exact item.format_ne_nil (append_eq_nil_iff.mp hnil').1
        · have hend' : n ≤ min t.length n := hend
          omega
      rw [formatOf_cons] at hip hfuel
      rw [if_neg hgo, argsOf_cons]
      obtain ⟨hitem, hoverrun⟩ := csRound_item hn item (formatOf items) t (argsOf items) hip
      by_cases hfits : item.Fits
      · obtain ⟨state', hround, hip'⟩ := hitem hfits
        have hlen : 0 < item.format.length := length_pos_iff.mpr item.format_ne_nil
        rw [length_append] at hfuel
        rw [hround, ok_bind, textOf_cons, ← append_assoc]
        rcases csLoop_spec hn items fuel state' (t ++ item.text Width.read) hip' (by omega) with
          ⟨herror, bad, hbad, hnot⟩ | ⟨state'', t', hok, hprefix, hend⟩
        · exact .inl ⟨herror, bad, mem_cons_of_mem _ hbad, hnot⟩
        · refine .inr ⟨state'', t', hok, hprefix, hend.imp_right fun h => ⟨h.1, ?_⟩⟩
          exact forall_mem_cons.mpr ⟨hfits, h.2⟩
      · rw [hoverrun hfits, error_bind]
        exact .inl ⟨rfl, item, mem_cons_self, hfits⟩

/-! ### The call -/

/-- The buffer after the NULs have been put in: the string is what was printed, up to the last character but one. -/
def terminated (out : Bytes) (n : ℕ) (t : Bytes) : Bytes := splice (splice out 0 ((t ++ [0]).take n)) (n - 1) [0]

lemma length_terminated (h0 : 0 < n) (hn : n ≤ out.length) (t : Bytes) : (terminated out n t).length = out.length := by
  have hfits : 0 + ((t ++ [0]).take n).length ≤ out.length := by
    rw [length_take]
    omega
  rw [terminated, length_splice, length_splice hfits]
  rw [length_splice hfits, length_singleton]
  omega

lemma drop_terminated (h0 : 0 < n) (hn : n ≤ out.length) (t : Bytes) : (terminated out n t).drop n = out.drop n := by
  have hlen : ((t ++ [0]).take n).length ≤ n := by
    rw [length_take]
    omega
  have hfits : 0 + ((t ++ [0]).take n).length ≤ out.length := by omega
  rw [terminated, drop_splice, drop_splice hfits (by omega)]
  · rw [length_splice hfits, length_singleton]
    omega
  · rw [length_singleton]
    omega

lemma take_terminated (h0 : 0 < n) (hn : n ≤ out.length) (t : Bytes) :
    (terminated out n t).take (min t.length (n - 1) + 1) = t.take (n - 1) ++ [0] := by
  have hlen : ((t ++ [0]).take n).length ≤ n := by
    rw [length_take]
    omega
  have hfits : 0 + ((t ++ [0]).take n).length ≤ out.length := by omega
  have hbuf : n - 1 ≤ (splice out 0 ((t ++ [0]).take n)).length := by
    rw [length_splice hfits]
    omega
  rcases lt_or_ge t.length (n - 1) with hlt | hge
  · -- the string ends before the last byte
    have hbefore := slice_splice_before (x := [0]) (k := 0) (n := t.length + 1) hbuf (by omega)
    rw [drop_zero, drop_zero] at hbefore
    have hall : (t ++ [0]).take n = t ++ [0] := take_of_length_le (by
      rw [length_append, length_singleton]
      omega)
    rw [min_eq_left hlt.le, terminated, hbefore, hall, splice_zero, take_of_length_le hlt.le]
    exact take_left' (by rw [length_append, length_singleton])
  · -- the last byte is the NUL
    have htake : (splice out 0 ((t ++ [0]).take n)).take (n - 1) = t.take (n - 1) := by
      rw [splice_zero, take_append_of_le_length, take_take, min_eq_left (by omega), take_append_of_le_length hge]
      rw [length_take, length_append, length_singleton]
      omega
    rw [min_eq_right hge, terminated, splice, htake, ← append_assoc]
    apply take_left'
    rw [length_append, length_take, length_singleton]
    omega

/-- CALL: an overrun, or a string that is a beginning of the text with the widths as they are read; if it is not all of
    it, the buffer is full. -/
lemma cheesySnprintf_spec (h0 : 0 < n) (hn : n ≤ out.length) (items : List Item) :
    (cheesySnprintf out n (formatOf items) (argsOf items) = .error .outOfRange ∧ ∃ item ∈ items, ¬item.Fits) ∨
      ∃ t, cheesySnprintf out n (formatOf items) (argsOf items) = .ok (terminated out n t, (min t.length n : ℕ)) ∧
        t <+: textOf Width.read items ∧ (n ≤ t.length ∨ t = textOf Width.read items ∧ ∀ item ∈ items, item.Fits) := by
  have hinit : (⟨formatOf items, 0, 0, 0, 0, out, 0, (n : ℤ).toNat⟩ : CheesySprintfState) =
      printed ⟨formatOf items, 0, 0, 0, 0, out, 0, n⟩ out n [] := by
    simp [printed]
  rw [cheesySnprintf, if_neg (by omega), hinit]
  rcases csLoop_spec hn items ((formatOf items).length + 1) ⟨formatOf items, 0, 0, 0, 0, out, 0, n⟩ [] rfl
    (lt_succ_self _) with ⟨herror, hbad⟩ | ⟨state, t, hok, hprefix, hend⟩
  · rw [herror, error_bind]
    exact .inl ⟨rfl, hbad⟩
  · rw [nil_append] at hprefix hend
    refine .inr ⟨t, ?_, hprefix, hend⟩
    have hfits : 0 + ((t ++ [0]).take n).length ≤ out.length := by
      rw [length_take]
      omega
    have hnul : writeAt (splice out 0 ((t ++ [0]).take n)) ((n : ℤ).toNat - 1) [0] = .ok (terminated out n t) := by
      rw [Int.toNat_natCast]
      apply writeAt_of_fits
      rw [length_splice hfits, length_singleton]
      omega
    simp only [hok, ok_bind, csOut_printed hn]
    rw [show (printed state out n (t ++ [0])).out = splice out 0 ((t ++ [0]).take n) from rfl, hnul, ok_bind]
    rfl

/-- What a call should do: print the text of the items with the widths as they are written, cut to `n - 1` characters and
    with a NUL behind it, write to no more than `n` bytes of the buffer, and return the length of the string. -/
structure Prints (items : List Item) (n : ℕ) (out out' : Bytes) (result : ℤ) : Prop where
  text : out'.take (((textOf Width.value items).take (n - 1)).length + 1) = (textOf Width.value items).take (n - 1) ++ [0]
  length : out'.length = out.length
  beyond : out'.drop n = out.drop n
  result : result = ((textOf Width.value items).take (n - 1)).length

lemma fits_of_prints (h0 : 0 < n) (hn : n ≤ out.length) {out' : Bytes} {result : ℤ}
    (hok : cheesySnprintf out n (formatOf items) (argsOf items) = .ok (out', result))
    (hprints : Prints items n out out' result) : (∀ item ∈ items, item.Fits) ∧
      (textOf Width.read items).length < n ∧ (textOf Width.value items).take (n - 1) = textOf Width.read items := by
  rcases cheesySnprintf_spec h0 hn items with ⟨herror, -⟩ | ⟨t, hcall, -, hend⟩
  · rw [herror] at hok
    cases hok
  · rw [hcall, Except.ok.injEq, Prod.mk.injEq] at hok
    obtain ⟨rfl, rfl⟩ := hok
    have hresult : min t.length n = ((textOf Width.value items).take (n - 1)).length := by
      exact_mod_cast hprints.result
    have hshort : ((textOf Width.value items).take (n - 1)).length ≤ n - 1 := by
      rw [length_take]
      omega
    have hlt : t.length < n := by omega
    obtain ⟨rfl, hfits⟩ := hend.resolve_left (by omega)
    have htext := hprints.text
    have htake := take_terminated h0 hn (textOf Width.read items)
    rw [← hresult, min_eq_left hlt.le] at htext
    rw [min_eq_left (by omega), htext, take_of_length_le (l := textOf Width.read items) (by omega)] at htake
    exact ⟨hfits, hlt, append_cancel_right htake⟩

lemma cheesySnprintf_of_fits (h0 : 0 < n) (hn : n ≤ out.length) (hfits : ∀ item ∈ items, item.Fits)
    (hlen : (textOf Width.read items).length < n) : cheesySnprintf out n (formatOf items) (argsOf items) =
        .ok (terminated out n (textOf Width.read items), (textOf Width.read items).length) ∧
      (terminated out n (textOf Width.read items)).take ((textOf Width.read items).length + 1) =
        textOf Width.read items ++ [0] := by
  rcases cheesySnprintf_spec h0 hn items with ⟨-, item, hmem, hnot⟩ | ⟨t, hcall, hprefix, hend⟩
  · exact absurd (hfits item hmem) hnot
  · obtain ⟨rfl, -⟩ := hend.resolve_left fun hfull => absurd (hfull.trans hprefix.length_le) (by omega)
    have htake := take_terminated h0 hn (textOf Width.read items)
    rw [min_eq_left (by omega), take_of_length_le (i := n - 1) (by omega)] at htake
    exact ⟨by rw [hcall, min_eq_left hlen.le], htake⟩

lemma length_textOf_le (items : List Item) :
    (textOf Width.read items).length ≤ (textOf Width.value items).length := by
  induction items with
  | nil => exact le_rfl
  | cons item items ih =>
    have hitem := item.text_cases.1
    rw [textOf_cons, textOf_cons, length_append, length_append]
    omega

lemma padded_of_length (items : List Item)
    (hlen : (textOf Width.read items).length = (textOf Width.value items).length) : ∀ item ∈ items, item.Padded := by
  induction items with
  | nil => exact fun _ h => absurd h not_mem_nil
  | cons item items ih =>
    have hitem := item.text_cases.1
    have hrest := length_textOf_le items
    rw [textOf_cons, textOf_cons, length_append, length_append] at hlen
    exact forall_mem_cons.mpr ⟨item.text_cases.2.1 (by omega), ih (by omega)⟩

lemma textOf_of_padded (hpadded : ∀ item ∈ items, item.Padded) : textOf Width.read items = textOf Width.value items :=
  flatMap_congr fun item hitem => item.text_cases.2.2 (hpadded item hitem)

/-- CALL: right exactly if every decimal number has at most nine digits, the text with the widths as they are read fits
    with its NUL, and it is the text that is asked for. -/
lemma exists_prints_iff (h0 : 0 < n) (hn : n ≤ out.length) (items : List Item) :
    (∃ out' result, cheesySnprintf out n (formatOf items) (argsOf items) = .ok (out', result) ∧
        Prints items n out out' result) ↔ (∀ item ∈ items, item.Fits) ∧ (textOf Width.read items).length < n ∧
        (textOf Width.value items).take (n - 1) = textOf Width.read items := by
  constructor
  · rintro ⟨out', result, hok, hprints⟩
    exact fits_of_prints h0 hn hok hprints
  · rintro ⟨hfits, hlen, htext⟩
    obtain ⟨hcall, htake⟩ := cheesySnprintf_of_fits h0 hn hfits hlen
    refine ⟨_, _, hcall, ?_, length_terminated h0 hn _, drop_terminated h0 hn _, ?_⟩
    · rw [htext]
      exact htake
    · rw [htext]

/-- RIGHT: if the text fits with its NUL, exactly if every decimal number has at most nine digits and every width can be
    read; and if every width can be read, exactly if the numbers do and the text fits. -/
theorem cheesySnprintf_prints_iff (h0 : 0 < n) (hn : n ≤ out.length) (items : List Item) :
    ((textOf Width.value items).length < n →
      ((∃ out' result, cheesySnprintf out n (formatOf items) (argsOf items) = .ok (out', result) ∧
        Prints items n out out' result) ↔ (∀ item ∈ items, item.Fits) ∧ ∀ item ∈ items, item.Padded)) ∧
    ((∀ item ∈ items, item.Padded) →
      ((∃ out' result, cheesySnprintf out n (formatOf items) (argsOf items) = .ok (out', result) ∧
        Prints items n out out' result) ↔ (∀ item ∈ items, item.Fits) ∧ (textOf Width.value items).length < n)) := by
  rw [exists_prints_iff h0 hn]
  refine ⟨fun hlen => ?_, fun hpadded => ?_⟩
  · rw [take_of_length_le (by omega)]
    refine and_congr_right fun _ => ⟨fun h => padded_of_length items (by rw [h.2]), fun hpadded => ?_⟩
    rw [textOf_of_padded hpadded]
    exact ⟨hlen, rfl⟩
  · rw [textOf_of_padded hpadded]
    exact and_congr_right fun _ => and_iff_left_of_imp fun hlen => take_of_length_le (by omega)

/-- The format `a%21s`, with `b`: the bits of 1 are not those of 20. -/
def paddedItems : List Item :=
  [.literal (chr 'a') (by decide) (by decide), .conversion ⟨[2, 1], by decide, by decide⟩ (.str [chr 'b'] (by decide))]

theorem cheesySnprintf_prints_iff_padded : ∃ out' result,
    cheesySnprintf (List.replicate 30 7) (30 : ℕ) (formatOf paddedItems) (argsOf paddedItems) = .ok (out', result) ∧
      Prints paddedItems 30 (List.replicate 30 7) out' result :=
  ((cheesySnprintf_prints_iff (by decide) (by decide) paddedItems).1 (by decide)).mpr
    ⟨by simp [paddedItems, Item.Fits, Conversion.Fits], by
      simp only [paddedItems, forall_mem_cons, not_mem_nil, false_imp_iff, implies_true, and_true]
      exact ⟨trivial, .inr (by decide)⟩⟩

/-- A number of ten digits is not printed. -/
theorem not_cheesySnprintf_prints : ¬∀ (items : List Item) (out : Bytes) (n : ℕ), 0 < n → n ≤ out.length →
    ∃ out' result, cheesySnprintf out n (formatOf items) (argsOf items) = .ok (out', result) ∧
      Prints items n out out' result := by
  intro hall
  obtain ⟨out', result, hok, hprints⟩ := hall [.conversion ⟨[], by decide, by decide⟩ (.dec true 1000000000)]
    (List.replicate 20 0) 20 (by decide) (by decide)
  have hfits := (fits_of_prints (by decide) (by decide) hok hprints).1 _ mem_cons_self
  exact absurd hfits (by decide : ¬(1000000000 : UInt32).toNat < 10 ^ 9)

end

end Embassies.Utils
