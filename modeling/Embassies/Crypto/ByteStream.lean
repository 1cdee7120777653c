import Embassies.Crypto.DomainName
import Mathlib.Data.UInt

/-! Streams of words over a byte buffer: `ByteStream.cpp`.

    A stream writes and reads words of 8, 16 and 32 bits at its position. Words of 32 bits go through
    `z_htons`, which keeps 16 of them: the stream is a codec for the sequences whose 32-bit words are zero. -/

namespace Embassies.Crypto

open List Nat

/-- `z_htons(input)`, and `z_ntohs`. -/
def zHtons (input : UInt16) : UInt16 := input <<< 8 ||| input >>> 8

lemma toNat_zHtons (v : UInt16) : (zHtons v).toNat = v.toNat % 256 * 256 + v.toNat / 256 := by
  have hlow : v.toNat / 256 < 2 ^ 8 := by have := v.toNat_lt; omega
  have hshift : (8 : UInt16).toNat % 16 = 8 := rfl
  rw [zHtons, UInt16.toNat_or, UInt16.toNat_shiftLeft, UInt16.toNat_shiftRight, hshift, shiftLeft_eq,
    shiftRight_eq_div_pow]
  rw [show v.toNat * 2 ^ 8 % 2 ^ 16 = 2 ^ 8 * (v.toNat % 256) by omega, ← two_pow_add_eq_or_of_lt hlow]
  omega

lemma zHtons_bytes (v : UInt16) : (zHtons v).toNat / 256 = v.toNat % 256 ∧ (zHtons v).toNat % 256 = v.toNat / 256 := by
  have hlow : v.toNat / 256 < 256 := by have := v.toNat_lt; omega
  rw [toNat_zHtons, add_comm, add_mul_div_right _ _ (by norm_num), div_eq_of_lt hlow, zero_add,
    add_mul_mod_self_right, mod_eq_of_lt hlow]
  exact ⟨rfl, rfl⟩

lemma zHtons_zHtons (v : UInt16) : zHtons (zHtons v) = v := by
  obtain ⟨hhigh, hlow⟩ := zHtons_bytes v
  apply UInt16.toNat_inj.mp
  rw [toNat_zHtons, hhigh, hlow]
  omega

/-- The types of the operators. -/
inductive Width where | u8 | u16 | u32
  deriving DecidableEq, Repr

/-- `sizeof` the type. -/
def Width.size : Width → ℕ
  | u8 => 1
  | u16 => 2
  | u32 => 4

/-- A word of one of the types. -/
inductive Word where
  | u8 (value : UInt8)
  | u16 (value : UInt16)
  | u32 (value : UInt32)
  deriving DecidableEq, Repr

namespace Word

def width : Word → Width
  | u8 _ => .u8
  | u16 _ => .u16
  | u32 _ => .u32

/-- The bytes that `<<` stores, in the order of the machine. -/
def stored : Word → Bytes
  | u8 value => [value]
  | u16 value => toLE 2 (zHtons value).toNat
  | u32 value => toLE 4 (zHtons value.toUInt16).toNat

/-- The word that `>>` makes of the bytes. -/
def loaded : Width → Bytes → Word
  | .u8, x => u8 (UInt8.ofNat (ofLE x))
  | .u16, x => u16 (zHtons (UInt16.ofNat (ofLE x)))
  | .u32, x => u32 (zHtons (UInt32.ofNat (ofLE x)).toUInt16).toUInt32

def network : Word → Bytes
  | u8 value => [value]
  | u16 value => toBE 2 value.toNat
  | u32 value => toBE 4 value.toNat

@[simp] lemma length_stored (w : Word) : w.stored.length = w.width.size := by
  cases w <;> simp [stored, width, Width.size]

@[simp] lemma length_network (w : Word) : w.network.length = w.width.size := by
  cases w <;> simp [network, width, Width.size]

/-- Words up to 16 bits are stored in network order, and of the others only zero is. -/
lemma stored_eq_network (w : Word) : w.stored = w.network ↔ ∀ x, w = u32 x → x = 0 := by
  cases w with
  | u8 value => simp [stored, network]
  | u16 value =>
    have hlt := value.toNat_lt
    obtain ⟨hhigh, hlow⟩ := zHtons_bytes value
    have hsame : toLE 2 (zHtons value).toNat = toBE 2 value.toNat := by
      simp only [toLE, toBE, nil_append, cons_append, reverse_cons, reverse_nil, List.cons.injEq, and_true]
      constructor <;> apply UInt8.toNat_inj.mp <;> simp only [UInt8.toNat_ofNat'] <;> omega
    simp [stored, network, hsame]
  | u32 value =>
    have hlt := value.toNat_lt
    simp only [stored, network, u32.injEq, forall_eq']
    constructor
    · intro hsame
      have hhalf : (zHtons value.toUInt16).toNat < 65536 := (zHtons value.toUInt16).toNat_lt
      simp only [toLE, toBE, nil_append, cons_append, reverse_cons, reverse_nil, List.cons.injEq,
        and_true, ← UInt8.toNat_inj, UInt8.toNat_ofNat'] at hsame
      have htop : (zHtons value.toUInt16).toNat / 256 / 256 = 0 := by omega
      rw [htop] at hsame
      obtain ⟨h3, h2, h1, h0⟩ := hsame
      -- the last two bytes are the low half of the word, and zero as they are stored
      have hmod : value.toNat % 2 ^ 16 = 0 := by
        clear h3 h2
        omega
      have hlow : value.toUInt16 = 0 := by
        apply UInt16.toNat_inj.mp
        rw [UInt32.toNat_toUInt16, hmod, UInt16.toNat_zero]
      have hzero : (zHtons value.toUInt16).toNat = 0 := by rw [hlow]; rfl
      rw [hzero] at h3 h2
      apply UInt32.toNat_inj.mp
      rw [UInt32.toNat_zero]
      omega
    · rintro rfl
      rfl

lemma loaded_stored (w : Word) (h : ∀ x, w = u32 x → x = 0) : loaded w.width w.stored = w := by
  cases w with
  | u8 value =>
    have hread : ofLE [value] = value.toNat := by simp [ofLE, ofBE]
    rw [stored, width, loaded, hread, UInt8.ofNat_toNat]
  | u16 value =>
    rw [stored, width, loaded, ofLE_toLE_of_lt (zHtons value).toNat_lt, UInt16.ofNat_toNat, zHtons_zHtons]
  | u32 value =>
    obtain rfl := h value rfl
    rfl

end Word

/-- `ByteStream`, over memory of its size. -/
structure ByteStream where
  buffer : Bytes
  pos : ℕ
  nonempty : buffer ≠ []
  size_lt : buffer.length < 2 ^ 32
  pos_le : pos ≤ buffer.length

namespace ByteStream

/-- `assertBytesRemaining(numBytes)`. -/
def assertBytesRemaining (s : ByteStream) (numBytes : ℕ) : Except CryptoException Unit :=
  if u32 (s.pos + numBytes) < s.pos ∨ u32 (s.pos + numBytes) < numBytes then
    .error ⟨.integerOverflow, "Overflow while checking on a ByteStream!"⟩
  else if s.buffer.length < u32 (s.pos + numBytes) then
    .error ⟨.bufferOverflow, "Tried to read or write past the end of a ByteStream!"⟩
  else .ok ()

/-- The stream with bytes stored at its position, which moves behind them. -/
def store (s : ByteStream) (x : Bytes) (h : s.pos + x.length ≤ s.buffer.length) : ByteStream where
  buffer := splice s.buffer s.pos x
  pos := s.pos + x.length
  nonempty := by
    have hlen := length_splice h
    intro hnil
    rw [hnil] at hlen
    exact s.nonempty (length_eq_zero_iff.mp hlen.symm)
  size_lt := length_splice h ▸ s.size_lt
  pos_le := (length_splice h).symm ▸ h

/-- The stream at another position. -/
def seek (s : ByteStream) (pos : ℕ) (h : pos ≤ s.buffer.length) : ByteStream :=
  { s with pos := pos, pos_le := h }

def rewind (s : ByteStream) : ByteStream := s.seek 0 (Nat.zero_le _)

/-- `out << value`. -/
def write (out : ByteStream) (w : Word) : Outcome Unit × ByteStream :=
  match out.assertBytesRemaining w.width.size with
  | .error e => (.error (.thrown e), out)
  | .ok _ => if h : out.pos + w.stored.length ≤ out.buffer.length then (.ok (), out.store w.stored h)
      else (outOfRange, out)

/-- `in >> value`. -/
def read (s : ByteStream) (width : Width) : Outcome Word × ByteStream :=
  match s.assertBytesRemaining width.size with
  | .error e => (.error (.thrown e), s)
  | .ok _ => if h : s.pos + width.size ≤ s.buffer.length then
      (.ok (Word.loaded width (field s.buffer s.pos width.size)), s.seek (s.pos + width.size) h)
      else (outOfRange, s)

/-- Words written one after another, each whether or not the one before it threw. -/
def writeAll (s : ByteStream) (words : List Word) : ByteStream := words.foldl (fun s w => (s.write w).2) s

def readAll : ByteStream → List Width → List (Outcome Word)
  | _, [] => []
  | s, width :: widths => (s.read width).1 :: (s.read width).2.readAll widths

/-! ### What is written and read -/

variable (s : ByteStream)

lemma assertBytesRemaining_eq_ok (width : Width) :
    s.assertBytesRemaining width.size = .ok () ↔ s.pos + width.size ≤ s.buffer.length := by
  have hsize := s.size_lt
  have hpos := s.pos_le
  have hwidth : 0 < width.size ∧ width.size ≤ 4 := by cases width <;> decide
  unfold assertBytesRemaining u32
  split
  case isTrue h => exact iff_of_false nofun (by omega)
  case isFalse h =>
    split
    case isTrue h' => exact iff_of_false nofun (by omega)
    case isFalse h' => exact iff_of_true rfl (by omega)

/-- A call that would pass the end throws and changes nothing; the others return. -/
structure Exact (s : ByteStream) : Prop where
  write : ∀ w : Word, if s.pos + w.width.size ≤ s.buffer.length then
      (s.write w).1 = .ok () ∧ (s.write w).2.pos = s.pos + w.width.size
    else ∃ e, s.write w = (.error (.thrown e), s)
  read : ∀ width : Width, if s.pos + width.size ≤ s.buffer.length then
      (∃ w, (s.read width).1 = .ok w) ∧ (s.read width).2.pos = s.pos + width.size ∧ (s.read width).2.buffer = s.buffer
    else ∃ e, s.read width = (.error (.thrown e), s)

lemma write_of_fits {w : Word} (h : s.pos + w.stored.length ≤ s.buffer.length) :
    s.write w = (.ok (), s.store w.stored h) := by
  have hok := (s.assertBytesRemaining_eq_ok w.width).mpr (w.length_stored ▸ h)
  rw [write, hok]
  exact dif_pos h

lemma write_of_not_fits {w : Word} (h : ¬s.pos + w.width.size ≤ s.buffer.length) :
    ∃ e, s.write w = (.error (.thrown e), s) := by
  unfold write
  cases hassert : s.assertBytesRemaining w.width.size with
  | error e => exact ⟨e, rfl⟩
  | ok _ => exact absurd ((s.assertBytesRemaining_eq_ok _).mp hassert) h

lemma read_of_fits {width : Width} (h : s.pos + width.size ≤ s.buffer.length) :
    s.read width = (.ok (Word.loaded width (field s.buffer s.pos width.size)), s.seek (s.pos + width.size) h) := by
  rw [read, (s.assertBytesRemaining_eq_ok width).mpr h]
  exact dif_pos h

lemma exact : s.Exact where
  write w := by
    split
    case isTrue h =>
      rw [s.write_of_fits (w.length_stored.symm ▸ h)]
      exact ⟨rfl, congrArg (s.pos + ·) w.length_stored⟩
    case isFalse h => exact s.write_of_not_fits h
  read width := by
    split
    case isTrue h =>
      rw [s.read_of_fits h]
      exact ⟨⟨_, rfl⟩, rfl, rfl⟩
    case isFalse h =>
      unfold read
      cases hassert : s.assertBytesRemaining width.size with
      | error e => exact ⟨e, rfl⟩
      | ok _ => exact absurd ((s.assertBytesRemaining_eq_ok _).mp hassert) h

def fitting : (room : ℕ) → List Word → List Word
  | _, [] => []
  | room, w :: words => if w.width.size ≤ room then w :: fitting (room - w.width.size) words else fitting room words

lemma length_fitting : ∀ (room : ℕ) (words : List Word), ((fitting room words).flatMap Word.stored).length ≤ room
  | _, [] => zero_le _
  | room, w :: words => by
    unfold fitting
    split
    case isTrue h =>
      have ih := length_fitting (room - w.width.size) words
      rw [flatMap_cons, length_append, w.length_stored]
      omega
    case isFalse h => exact length_fitting room words

/-- WRITES: the words that fit are stored one behind the other. -/
lemma writeAll_spec : ∀ (words : List Word) (s : ByteStream),
    (s.writeAll words).buffer =
      splice s.buffer s.pos ((fitting (s.buffer.length - s.pos) words).flatMap Word.stored)
  | [], s => (splice_nil _ _).symm
  | w :: words, s => by
    have hpos := s.pos_le
    unfold fitting
    split
    case isTrue h =>
      have hfits : s.pos + w.stored.length ≤ s.buffer.length := by rw [w.length_stored]; omega
      have ih := writeAll_spec words (s.store w.stored hfits)
      have hroom : (splice s.buffer s.pos w.stored).length - (s.pos + w.stored.length) =
          s.buffer.length - s.pos - w.width.size := by
        rw [length_splice hfits, w.length_stored]
        omega
      rw [writeAll, foldl_cons, s.write_of_fits hfits]
      refine ih.trans ?_
      dsimp only [store]
      rw [hroom, splice_splice _ hfits, flatMap_cons]
    case isFalse h =>
      obtain ⟨e, hthrows⟩ := s.write_of_not_fits (w := w) (by omega)
      rw [writeAll, foldl_cons, hthrows]
      exact writeAll_spec words s

/-- READS: words that were stored one behind the other are read back, apart from what is lost of the wide ones. -/
lemma readAll_stored : ∀ (words : List Word) (s : ByteStream) (back : Bytes), (∀ x, .u32 x ∈ words → x = 0) →
    s.buffer.drop s.pos = words.flatMap Word.stored ++ back → s.readAll (words.map Word.width) = words.map .ok
  | [], _, _, _, _ => rfl
  | w :: words, s, back, hzero, hdrop => by
    rw [flatMap_cons, append_assoc] at hdrop
    have hlen := congrArg List.length hdrop
    rw [length_drop, length_append, w.length_stored] at hlen
    have hfits : s.pos + w.width.size ≤ s.buffer.length := by
      have hpos : 0 < w.width.size := by cases w <;> exact succ_pos _
      omega
    have hfield : field s.buffer s.pos w.width.size = w.stored := by
      rw [field, hdrop, ← w.length_stored, take_left]
    have hrest : s.buffer.drop (s.pos + w.width.size) = words.flatMap Word.stored ++ back := by
      rw [← drop_drop, hdrop, ← w.length_stored, drop_left]
    have ih := readAll_stored words (s.seek (s.pos + w.width.size) hfits) back
      (fun x hx => hzero x (mem_cons_of_mem _ hx)) hrest
    rw [map_cons, readAll, s.read_of_fits hfits, ih, hfield,
      w.loaded_stored fun x hx => hzero x (hx ▸ mem_cons_self ..), map_cons]

lemma stored_eq_of_flatMap : ∀ {words : List Word}, words.flatMap Word.stored = words.flatMap Word.network →
    ∀ w ∈ words, w.stored = w.network
  | w :: words, h, v, hv => by
    rw [flatMap_cons, flatMap_cons] at h
    obtain ⟨hhead, htail⟩ := append_inj h (by simp)
    rcases mem_cons.mp hv with rfl | hv
    · exact hhead
    · exact stored_eq_of_flatMap htail v hv

/-- What a stream should do with a sequence of words. -/
structure Codes (s : ByteStream) (words : List Word) : Prop where
  exact : ∀ s' : ByteStream, s'.Exact
  layout : (s.rewind.writeAll words).buffer =
    splice s.buffer 0 ((fitting s.buffer.length words).flatMap Word.network)
  readBack : (s.rewind.writeAll words).rewind.readAll ((fitting s.buffer.length words).map Word.width) =
    (fitting s.buffer.length words).map .ok

/-- CODEC: the words that fit are in the buffer in network order and are read back, and all other calls throw, if and
    only if those of 32 bits are zero. -/
theorem codes_iff (words : List Word) : s.Codes words ↔ ∀ x, .u32 x ∈ fitting s.buffer.length words → x = 0 := by
  have hwritten := writeAll_spec words s.rewind
  rw [show s.rewind.buffer = s.buffer from rfl, show s.rewind.pos = 0 from rfl, Nat.sub_zero] at hwritten
  have hlen := length_fitting s.buffer.length words
  constructor
  · intro h x hx
    have hsame := hwritten.symm.trans h.layout
    have hstored : (fitting s.buffer.length words).flatMap Word.stored =
        (fitting s.buffer.length words).flatMap Word.network := by simpa [splice] using hsame
    exact (Word.stored_eq_network _).mp (stored_eq_of_flatMap hstored _ hx) x rfl
  · intro hzero
    have hstored : (fitting s.buffer.length words).flatMap Word.stored =
        (fitting s.buffer.length words).flatMap Word.network := by
      refine flatMap_congr fun w hw => (Word.stored_eq_network w).mpr fun x hx => hzero x (hx ▸ hw)
    refine ⟨fun s' => s'.exact, hstored ▸ hwritten, ?_⟩
    refine readAll_stored _ _ (s.buffer.drop ((fitting s.buffer.length words).flatMap Word.stored).length) hzero ?_
    change (s.rewind.writeAll words).buffer.drop 0 = _
    rw [hwritten, drop_zero, splice, take_zero, nil_append, Nat.zero_add]

def fourBytes : ByteStream := ⟨[0, 0, 0, 0], 0, by decide, by decide, by decide⟩

/-- A one of 32 bits is not stored in network order. -/
theorem not_codes : ¬∀ (s : ByteStream) (words : List Word), s.Codes words := fun h => by
  have hlayout := (h fourBytes [.u32 1]).layout
  revert hlayout
  decide

end ByteStream

end Embassies.Crypto
