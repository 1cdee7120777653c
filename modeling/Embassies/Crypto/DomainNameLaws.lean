import Embassies.Crypto.DomainName
import Embassies.Lib.Dotted
import Mathlib.Data.List.TakeWhile

/-! Domain names compare by labels exactly if no label has a dot, NUL, a star or an upper-case letter in it.

    Both constructors store the labels joined with dots, the string constructor in lower case. What the
    comparisons see of that is the part before the first NUL, the size, and the count of labels. -/

namespace Embassies.Crypto

open List Except Throwing Nat

variable {b : Bytes} {i n : ℕ}

lemma byteAt_of_lt (h : i < b.length) : byteAt b i = .ok b[i] := by rw [byteAt, getElem?_eq_getElem h]; rfl

lemma byteAt_eq_ok {c : UInt8} : byteAt b i = .ok c ↔ b[i]? = some c := by
  rw [byteAt]
  cases b[i]? with
  | none => exact iff_of_false nofun nofun
  | some d => exact ⟨fun h => by rw [ok.inj h], fun h => by rw [Option.some.inj h]; rfl⟩

lemma bytesIn_eq_ok {off len : ℕ} {x : Bytes} :
    bytesIn b off len = .ok x ↔ off + len ≤ b.length ∧ x = field b off len := by
  rw [bytesIn]
  split
  case isTrue h => exact ⟨fun hx => ⟨h, (ok.inj hx).symm⟩, fun hx => by rw [hx.2]; rfl⟩
  case isFalse h => exact iff_of_false nofun fun hx => h hx.1

lemma liteStrlen_append {s r : Bytes} (h : 0 ∉ s) : liteStrlen (s ++ 0 :: r) = .ok s.length := by
  induction s with
  | nil => rfl
  | cons c s ih =>
    rw [mem_cons, not_or] at h
    rw [cons_append, liteStrlen, if_neg (Ne.symm h.1), ih h.2]
    rfl

lemma liteStrlen_of_not_mem {s : Bytes} (h : 0 ∉ s) : liteStrlen s = outOfRange := by
  induction s with
  | nil => rfl
  | cons c s ih =>
    rw [mem_cons, not_or] at h
    rw [liteStrlen, if_neg (Ne.symm h.1), ih h.2]
    rfl

/-- The characters of a string. -/
def charsOf (name : Bytes) (size : ℕ) : Bytes := (name.take size).takeWhile (· ≠ 0)

lemma liteStrnlen_eq_ok : ∀ {name : Bytes} {size l : ℕ}, liteStrnlen name size = .ok l → l = (charsOf name size).length
  | [], _, _, h => absurd h nofun
  | _ :: _, 0, _, h => (ok.inj h).symm
  | c :: s, size + 1, l, h => by
    rw [liteStrnlen] at h
    split at h
    case isTrue hc =>
      rw [← ok.inj h]
      simp [charsOf, hc]
    case isFalse hc =>
      obtain ⟨l', hl', hl⟩ := of_bind h
      rw [← ok.inj hl, liteStrnlen_eq_ok hl']
      simp [charsOf, hc]

namespace DomainName

variable {L : List Bytes} (name : Bytes) {c : UInt8} (size : ℕ) {d : DomainName}

/-! ### Labels -/

/-- The dotted string of labels; the root is a space. -/
def text (L : List Bytes) : Bytes := if L = [] then [charSpace] else [charDot].intercalate L

def wireForm (L : List Bytes) : Bytes := L.flatMap (fun l => UInt8.ofNat l.length :: l) ++ [0]

/-- What a wire form can hold. -/
def Wired (L : List Bytes) : Prop := ∀ l ∈ L, l ≠ [] ∧ l.length < 256

def stringLabels (chars : Bytes) : List Bytes := if chars = [charSpace] then [] else chars.splitOn charDot

/-- Labels in lower case. -/
def lower (L : List Bytes) : List Bytes := L.map (List.map toLower)

/-- A name holds labels. -/
structure Holds (d : DomainName) (L : List Bytes) : Prop where
  nameBytes : d.nameBytes = text L ++ [0]
  len : d.len = (wireForm L).length

lemma text_cons (h : L ≠ []) : text L = [charDot].intercalate L := if_neg h

@[simp] lemma wireForm_cons (l : Bytes) (L : List Bytes) :
    wireForm (l :: L) = UInt8.ofNat l.length :: (l ++ wireForm L) := by
  simp [wireForm]

lemma length_wireForm (h : L ≠ []) : (wireForm L).length = (text L).length + 2 := by
  rw [text_cons h, wireForm]
  induction L with
  | nil => exact absurd rfl h
  | cons l L ih =>
    cases L with
    | nil => simp
    | cons l' L =>
      have := ih nofun
      rw [intercalate_cons_cons]
      simp only [flatMap_cons, length_append, length_cons, length_nil] at this ⊢
      omega

lemma wireForm_inj : ∀ {L M : List Bytes} {r r' : Bytes}, Wired L → Wired M →
    wireForm L ++ r = wireForm M ++ r' → L = M
  | [], [], _, _, _, _, _ => rfl
  | [], m :: M, _, _, _, hM, h => by
    obtain ⟨hne, hlt⟩ := hM m (mem_cons_self ..)
    have hzero : (0 : UInt8) = UInt8.ofNat m.length := (cons.inj h).1
    have := congrArg UInt8.toNat hzero
    rw [UInt8.toNat_ofNat_of_lt' hlt] at this
    exact absurd (length_eq_zero_iff.mp this.symm) hne
  | l :: L, [], _, _, hL, _, h => by
    obtain ⟨hne, hlt⟩ := hL l (mem_cons_self ..)
    have hzero : UInt8.ofNat l.length = 0 := (cons.inj h).1
    have := congrArg UInt8.toNat hzero
    rw [UInt8.toNat_ofNat_of_lt' hlt] at this
    exact absurd (length_eq_zero_iff.mp this) hne
  | l :: L, m :: M, r, r', hL, hM, h => by
    have hl := (hL l (mem_cons_self ..)).2
    have hm := (hM m (mem_cons_self ..)).2
    rw [wireForm_cons, wireForm_cons] at h
    obtain ⟨hlen, htail⟩ := cons.inj h
    have hlength : l.length = m.length := by
      have := congrArg UInt8.toNat hlen
      rwa [UInt8.toNat_ofNat_of_lt' hl, UInt8.toNat_ofNat_of_lt' hm] at this
    have htail : l ++ (wireForm L ++ r) = m ++ (wireForm M ++ r') := by simpa using htail
    obtain ⟨rfl, hrest⟩ := append_inj htail hlength
    rw [wireForm_inj (fun x hx => hL x (mem_cons_of_mem _ hx)) (fun x hx => hM x (mem_cons_of_mem _ hx)) hrest]

/-! ### The wire constructor -/

def dotted (L : List Bytes) : Bytes := L.flatMap (· ++ [charDot])

lemma dotted_eq (h : L ≠ []) : dotted L = text L ++ [charDot] := by
  rw [text_cons h, dotted]
  induction L with
  | nil => exact absurd rfl h
  | cons l L ih =>
    cases L with
    | nil => simp
    | cons l' L =>
      rw [flatMap_cons, ih nofun, intercalate_cons_cons]
      simp

/-- The loop adds the labels that are left. -/
lemma wireLoop_spec (dnsbuffer : Bytes) (size : ℕ) : ∀ (fuel : ℕ) (nameBytes : Bytes) (k : ℕ) (d : DomainName),
    wireLoop dnsbuffer size fuel nameBytes k = .ok d → ∃ L r, Wired L ∧
      dnsbuffer.drop nameBytes.length = wireForm L ++ r ∧ nameBytes.length + (wireForm L).length ≤ size ∧
      nameBytes.length + (wireForm L).length ≤ maxDnsNameLen ∧ d.len = nameBytes.length + (wireForm L).length ∧
      d.nameBytes = (if nameBytes ++ dotted L = [] then [charSpace] else (nameBytes ++ dotted L).dropLast) ++ [0] ∧
      d.numLabels = k + L.countP (· ≠ [charStar]) := by
  intro fuel
  induction fuel with
  | zero =>
    intro nameBytes k d h
    cases h
  | succ fuel ih =>
    intro nameBytes k d h
    rw [wireLoop] at h
    split at h
    case isFalse => exact absurd h nofun
    case isTrue hlt =>
      rw [lt_min_iff] at hlt
      obtain ⟨labelLen, hbyte, hbound⟩ := of_bind h
      obtain ⟨c, hc, rfl⟩ : ∃ c, byteAt dnsbuffer nameBytes.length = .ok c ∧ c.toNat = labelLen := by
        cases hbyte' : byteAt dnsbuffer nameBytes.length with
        | error e => rw [hbyte'] at hbyte; exact absurd hbyte nofun
        | ok c => rw [hbyte'] at hbyte; exact ⟨c, rfl, ok.inj hbyte⟩
      rw [byteAt_eq_ok] at hc
      have hdrop : dnsbuffer.drop nameBytes.length = c :: dnsbuffer.drop (nameBytes.length + 1) := by
        obtain ⟨hin, rfl⟩ := List.getElem?_eq_some_iff.mp hc
        rw [drop_eq_getElem_cons hin]
      split at hbound
      · cases hbound
      case isFalse hsize =>
        obtain ⟨label, hlabel, hend⟩ := of_bind hbound
        obtain ⟨hin, rfl⟩ := bytesIn_eq_ok.mp hlabel
        split at hend
        case isTrue hzero =>
          -- the root label ends the name
          have hc0 : c = 0 := UInt8.toNat_inj.mp (by rw [hzero]; rfl)
          refine ⟨[], dnsbuffer.drop (nameBytes.length + 1), nofun, by rw [hdrop, hc0]; rfl,
            by change _ + 1 ≤ _; omega, by change _ + 1 ≤ _; omega, ?_⟩
          split at hend
          case isTrue hnil =>
            rw [← ok.inj hend, length_eq_zero_iff.mp hnil]
            exact ⟨rfl, rfl, rfl⟩
          case isFalse hne =>
            have hne' : nameBytes ≠ [] := fun heq => hne (by rw [heq]; rfl)
            rw [← ok.inj hend]
            refine ⟨rfl, ?_, rfl⟩
            rw [if_neg (by simpa [dotted] using hne')]
            simp [dotted]
        case isFalse hpos =>
          split at hend
          · cases hend
          case isFalse hfits =>
            obtain ⟨L, r, hwired, hrest, hsize', hmax, hlen, hbytes, hcount⟩ := ih _ _ d hend
            have hfield := length_field hin
            have hlength : (nameBytes ++ field dnsbuffer (nameBytes.length + 1) c.toNat ++ [charDot]).length =
                nameBytes.length + 1 + c.toNat := by
              simp only [length_append, length_singleton, hfield]
              omega
            have hform : (wireForm (field dnsbuffer (nameBytes.length + 1) c.toNat :: L)).length =
                c.toNat + 1 + (wireForm L).length := by
              rw [wireForm_cons, length_cons, length_append, hfield]
              omega
            rw [hlength] at hrest hsize' hmax hlen
            refine ⟨field dnsbuffer (nameBytes.length + 1) c.toNat :: L, r, ?_, ?_, by omega, by omega, by omega, ?_, ?_⟩
            · intro l hl
              rcases mem_cons.mp hl with rfl | hl
              · exact ⟨fun hnil => hpos (by rw [← hfield, hnil]; rfl), by rw [hfield]; exact c.toNat_lt⟩
              · exact hwired l hl
            · have hsplit : dnsbuffer.drop (nameBytes.length + 1) =
                  field dnsbuffer (nameBytes.length + 1) c.toNat ++ (wireForm L ++ r) := by
                have hcut := take_append_drop c.toNat (dnsbuffer.drop (nameBytes.length + 1))
                rw [drop_drop, hrest] at hcut
                exact hcut.symm
              rw [hdrop, hsplit, wireForm_cons, hfield, UInt8.ofNat_toNat]
              simp
            · rw [hbytes]
              simp [dotted]
            · have hstar : field dnsbuffer (nameBytes.length + 1) c.toNat = [charStar] → c.toNat = 1 := fun heq => by
                rw [← hfield, heq]
                rfl
              rw [hcount, countP_cons]
              by_cases hs : field dnsbuffer (nameBytes.length + 1) c.toNat = [charStar]
              · have hone := hstar hs
                rw [if_neg (by rw [not_not]; exact ⟨hone, by omega, hs⟩)]
                simp [hs]
              · rw [if_pos (fun hand => hs hand.2.2)]
                simp only [hs, ne_eq, not_false_eq_true, decide_true, if_true]
                omega

/-- WIRE: the constructor holds the labels of the wire form. -/
lemma ofWire_spec {dnsbuffer : Bytes} {size : ℕ} (h : ofWire dnsbuffer size = .ok d) :
    ∃ L, Wired L ∧ wireForm L <+: dnsbuffer ∧ d.Holds L ∧ d.numLabels = L.countP (· ≠ [charStar]) ∧
      (wireForm L).length ≤ size ∧ (wireForm L).length ≤ maxDnsNameLen := by
  rw [ofWire] at h
  split at h
  · cases h
  · obtain ⟨L, r, hwired, hbuffer, hsize, hmax, hlen, hbytes, hcount⟩ := wireLoop_spec dnsbuffer size _ [] 0 d h
    rw [length_nil, zero_add] at hsize hmax hlen
    rw [length_nil, drop_zero] at hbuffer
    rw [zero_add] at hcount
    refine ⟨L, hwired, ⟨r, hbuffer.symm⟩, ⟨?_, hlen⟩, hcount, hsize, hmax⟩
    rw [hbytes, nil_append]
    by_cases hL : L = []
    · rw [hL]
      rfl
    · rw [dotted_eq hL, if_neg (by simp), dropLast_concat]

/-! ### The string constructor -/

lemma take_charsOf : ∀ (name : Bytes) (size : ℕ), (charsOf name size).length < size →
    (charsOf name size).length < name.length → name.take ((charsOf name size).length + 1) = charsOf name size ++ [0]
  | [], _, _, h => absurd h (not_lt_zero _)
  | _ :: _, 0, h, _ => absurd h (not_lt_zero _)
  | c :: name, size + 1, hsize, hlen => by
    by_cases hc : c = 0
    · subst hc
      rfl
    · have hcons : charsOf (c :: name) (size + 1) = c :: charsOf name size := by simp [charsOf, hc]
      rw [hcons, length_cons] at hsize hlen ⊢
      rw [take_succ_cons, take_charsOf name size (by omega) (by simpa using hlen)]
      rfl

lemma charsOf_front : charsOf name size <+: name := ( takeWhile_prefix _).trans ( take_prefix _ _)

lemma getElem?_charsOf {k : ℕ} (hk : k < (charsOf name size).length) : name[k]? = (charsOf name size)[k]? := by
  obtain ⟨r, hr⟩ := charsOf_front name size
  conv_lhs => rw [← hr]
  exact getElem?_append_left hk

lemma zero_not_mem_charsOf : 0 ∉ charsOf name size := fun h => by
  simpa using mem_takeWhile_imp h

lemma length_charsOf_le : (charsOf name size).length ≤ size := ( takeWhile_prefix _).length_le.trans (by simp)

lemma toLower_eq {x : UInt8} (hx : isLetter x = false) : toLower c = x ↔ c = x := by
  unfold toLower
  split
  case isTrue h =>
    simp only [Bool.and_eq_true, decide_eq_true_eq, UInt8.le_iff_toNat_le] at h
    simp only [isLetter, Bool.or_eq_false_iff, Bool.and_eq_false_iff, decide_eq_false_iff_not, UInt8.le_iff_toNat_le] at hx
    refine iff_of_false ?_ ?_
    · rintro rfl
      rw [UInt8.toNat_add] at hx
      simp at hx h
      omega
    · rintro rfl
      simp at hx h
      omega
  case isFalse h => rfl

lemma text_stringLabels (chars : Bytes) : text (stringLabels chars) = chars := by
  unfold stringLabels
  split
  case isTrue h => rw [h]; rfl
  case isFalse h => rw [text_cons (splitOn_ne_nil _ _), intercalate_splitOn]

lemma text_lower (L : List Bytes) : text (lower L) = (text L).map toLower := by
  cases L with
  | nil => rfl
  | cons l L =>
    rw [lower, text_cons (cons_ne_nil l L), text_cons (by simp)]
    induction L generalizing l with
    | nil => simp
    | cons l' L ih =>
      rw [map_cons, map_cons, intercalate_cons_cons, ← map_cons, ih, intercalate_cons_cons]
      simp [show toLower charDot = charDot from rfl]

lemma length_lower_wireForm (L : List Bytes) : (wireForm (lower L)).length = (wireForm L).length := by
  cases L with
  | nil => rfl
  | cons l L => rw [length_wireForm (cons_ne_nil l L), length_wireForm (by simp [lower]), text_lower, length_map]

/-- A string has been copied whole. -/
lemma copyString_spec {name : Bytes} {size : ℕ} (hlt : (charsOf name size).length < size)
    (h : copyString name (charsOf name size).length = .ok d) :
    d.Holds (lower (stringLabels (charsOf name size))) ∧ d.numLabels = (stringLabels (charsOf name size)).length := by
  unfold copyString at h
  split at h
  · cases h
  · obtain ⟨chars, hchars, h⟩ := of_bind h
    obtain ⟨hin, rfl⟩ := bytesIn_eq_ok.mp hchars
    have hcopy : field name 0 ((charsOf name size).length + 1) = charsOf name size ++ [0] := by
      rw [field, drop_zero, take_charsOf name size hlt (by omega)]
    dsimp only at h
    rw [hcopy] at h
    have hbytes : (charsOf name size ++ [0]).map toLower = text (lower (stringLabels (charsOf name size))) ++ [0] := by
      rw [text_lower, text_stringLabels, map_append]
      rfl
    by_cases hroot : charsOf name size = [charSpace]
    · rw [if_pos (by rw [hroot]; exact ⟨rfl, rfl⟩)] at h
      rw [← ok.inj h]
      refine ⟨⟨hbytes, ?_⟩, ?_⟩ <;> rw [hroot] <;> rfl
    · have hroot' : ¬((charsOf name size).length = 1 ∧ (charsOf name size ++ [0]).head? = some charSpace) := by
        rintro ⟨hone, hhead⟩
        obtain ⟨c, hc⟩ := length_eq_one_iff.mp hone
        rw [hc] at hhead hroot
        exact hroot (by rw [Option.some.inj hhead])
      rw [if_neg hroot'] at h
      rw [← ok.inj h]
      have hlabels : stringLabels (charsOf name size) = (charsOf name size).splitOn charDot := if_neg hroot
      refine ⟨⟨hbytes, ?_⟩, ?_⟩
      · rw [length_lower_wireForm, length_wireForm (by rw [hlabels]; exact splitOn_ne_nil _ _), text_stringLabels]
      · dsimp only
        rw [take_left, hlabels, length_splitOn]

/-- STRING: the constructor holds the labels of the string in lower case, or, if it is too long, a string
    without an end. -/
lemma parse_spec {name : Bytes} {size : ℕ} (h : parse name size = .ok d) :
    ((charsOf name size).length < maxDnsNameLen ∧ d.Holds (lower (stringLabels (charsOf name size))) ∧
      d.numLabels = (stringLabels (charsOf name size)).length) ∨
    (maxDnsNameLen < (charsOf name size).length ∧ 0 ∉ d.nameBytes) := by
  obtain ⟨ok, -, h⟩ := of_bind h
  split at h
  · cases h
  · obtain ⟨l, hl, h⟩ := of_bind h
    obtain rfl := liteStrnlen_eq_ok hl
    dsimp only at h
    split at h
    · cases h
    case isFalse hne =>
      obtain ⟨u, hterm, hcopy⟩ := of_bind h
      rcases lt_trichotomy (charsOf name size).length maxDnsNameLen with hlt | heq | hgt
      · rw [maxDnsNameLen] at hlt
        rw [mod_eq_of_lt (by omega)] at hterm hcopy hne
        refine .inl ⟨hlt, copyString_spec ((length_charsOf_le name size).lt_of_ne fun hsize => ?_) hcopy⟩
        -- a string as long as its size has no terminator
        rw [checkTerminator, if_pos hsize] at hterm
        obtain ⟨c, hc, hterm⟩ := of_bind hterm
        have hmem := (getElem?_charsOf name size (by omega)).symm.trans (byteAt_eq_ok.mp hc)
        have hne0 : c ≠ 0 := fun hzero => zero_not_mem_charsOf name size (hzero ▸ mem_of_getElem? hmem)
        rw [if_pos hne0] at hterm
        cases hterm
      · rw [heq] at hcopy
        cases hcopy
      · refine .inr ⟨hgt, ?_⟩
        rw [maxDnsNameLen] at hgt
        have hmod := mod_lt (charsOf name size).length (show 256 > 0 by omega)
        unfold copyString at hcopy
        split at hcopy
        · cases hcopy
        · obtain ⟨chars, hchars, hcopy⟩ := of_bind hcopy
          obtain ⟨hin, rfl⟩ := bytesIn_eq_ok.mp hchars
          have hbytes : d.nameBytes = (field name 0 ((charsOf name size).length % 256 + 1)).map toLower := by
            dsimp only at hcopy
            split at hcopy <;> rw [← Except.ok.inj hcopy]
          have hprefix : field name 0 ((charsOf name size).length % 256 + 1) <+: charsOf name size := by
            rw [field, drop_zero]
            exact prefix_of_prefix_length_le ( take_prefix _ _) (charsOf_front name size) (by simp; omega)
          rw [hbytes]
          intro hzero
          obtain ⟨c, hc, hlow⟩ := mem_map.mp hzero
          exact zero_not_mem_charsOf name size ((toLower_eq (by decide)).mp hlow ▸ hprefix.subset hc)

/-! ### Comparison -/

/-- Labels that the dotted string keeps apart: they have neither a dot nor NUL in them. -/
def Apart (L : List Bytes) : Prop := ∀ l ∈ L, charDot ∉ l ∧ 0 ∉ l

lemma mem_text (hroot : L ≠ []) (hc : c ∈ text L) : c = charDot ∨ ∃ l ∈ L, c ∈ l := by
  rw [text_cons hroot] at hc
  exact mem_intercalate hc

lemma Apart.zero_not_mem (h : Apart L) : 0 ∉ text L := by
  by_cases hroot : L = []
  · rw [hroot]
    decide
  · intro hzero
    rcases mem_text hroot hzero with hdot | ⟨l, hl, hc⟩
    · exact absurd hdot (by decide)
    · exact (h l hl).2 hc

variable {d e : DomainName} {L M : List Bytes}

lemma Holds.liteStrlen (h : d.Holds L) (hL : Apart L) : liteStrlen d.nameBytes = .ok (text L).length := by
  rw [h.nameBytes, liteStrlen_append hL.zero_not_mem]

lemma text_inj (hL : Apart L) (hM : Apart M) (hroot : L = [] ↔ M = []) (h : text L = text M) : L = M := by
  by_cases hL' : L = []
  · rw [hL', hroot.mp hL']
  · have hM' := fun heq => hL' (hroot.mpr heq)
    rw [text_cons hL', text_cons hM'] at h
    exact intercalate_inj hL' hM' (fun l hl => (hL l hl).1) (fun l hl => (hM l hl).1) h

lemma length_wireForm_nil : (wireForm []).length = 1 := rfl

lemma length_text_eq (h : (wireForm L).length = (wireForm M).length) :
    (L = [] ↔ M = []) ∧ (text L).length = (text M).length := by
  by_cases hL : L = []
  · by_cases hM : M = []
    · rw [hL, hM]
      exact ⟨Iff.rfl, rfl⟩
    · rw [hL, length_wireForm_nil, length_wireForm hM] at h
      omega
  · by_cases hM : M = []
    · rw [hM, length_wireForm_nil, length_wireForm hL] at h
      omega
    · rw [length_wireForm hL, length_wireForm hM] at h
      exact ⟨iff_of_false hL hM, by omega⟩

lemma eqLoop_spec {b1 b2 : Bytes} : ∀ (left i : ℕ), i + left ≤ b1.length → i + left ≤ b2.length →
    eqLoop b1 b2 left i = .ok (decide (field b1 i left = field b2 i left)) := by
  intro left
  induction left with
  | zero =>
    intro i _ _
    simp [eqLoop, field]
  | succ left ih =>
    intro i h1 h2
    rw [eqLoop, byteAt_of_lt (by omega), byteAt_of_lt (by omega), ok_bind, ok_bind]
    have hcons : ∀ b : Bytes, (hb : i < b.length) → field b i (left + 1) = b[i] :: field b (i + 1) left := by
      intro b hb
      rw [field, drop_eq_getElem_cons hb, take_succ_cons, field]
    rw [hcons b1 (by omega), hcons b2 (by omega), ih (i + 1) (by omega) (by omega)]
    split
    case isTrue hne => simp [hne]
    case isFalse heq => simp [not_not.mp heq]

/-- EQUALITY of names is equality of counts and labels, if the dotted string keeps them apart. -/
lemma Holds.eq_spec (h : d.Holds L) (h' : e.Holds M) (hL : Apart L) (hM : Apart M) :
    d.eq e = .ok (decide (d.numLabels = e.numLabels ∧ L = M)) := by
  rw [eq, h.len, h'.len]
  split
  case isTrue hne =>
    congr 1
    refine (decide_eq_false fun hsame => ?_).symm
    rw [hsame.1, hsame.2] at hne
    exact hne.elim (· rfl) (· rfl)
  case isFalse hsame =>
    rw [not_or, not_not, not_not] at hsame
    obtain ⟨hroot, hlen⟩ := length_text_eq hsame.1
    have hfield : ∀ L : List Bytes, field (text L ++ [0]) 0 (text L).length = text L := fun L => field_head rfl
    rw [h.liteStrlen hL, ok_bind, eqLoop_spec _ _ (by simp [h.nameBytes]) (by simp [h'.nameBytes, hlen]),
      h.nameBytes, h'.nameBytes, hfield, hlen, hfield]
    congr 1
    exact decide_eq_decide.mpr ⟨fun heq => ⟨hsame.2, text_inj hL hM hroot heq⟩, fun heq => congrArg text heq.2⟩

/-- The loop of `suffix` compares the strings from their ends. -/
lemma suffixLoop_spec (child parent : Bytes) : ∀ (p c : ℕ), p ≤ c → p ≤ parent.length → c ≤ child.length →
    ∃ r, suffixLoop child parent p c = .ok r ∧
      (r = true ↔ child.take c = parent.take p ∨ ∃ s, child.take c = s ++ charDot :: parent.take p) := by
  intro p
  induction p with
  | zero =>
    intro c _ _ hc
    cases c with
    | zero => exact ⟨true, rfl, by simp⟩
    | succ c =>
      have hlast := take_succ_eq_append_getElem (show c < child.length by omega)
      refine ⟨_, by rw [suffixLoop, byteAt_of_lt (by omega), ok_bind]; rfl, ?_⟩
      rw [take_zero, hlast, beq_iff_eq]
      constructor
      · intro hdot
        exact .inr ⟨child.take c, by rw [hdot]⟩
      · rintro (hnil | ⟨s, hs⟩)
        · exact absurd (append_eq_nil_iff.mp hnil).2 nofun
        · exact (cons.inj (append_inj' hs rfl).2).1
  | succ p ih =>
    intro c hpc hp hc
    cases c with
    | zero => omega
    | succ c =>
      obtain ⟨r, hrun, hr⟩ := ih c (by omega) (by omega) (by omega)
      rw [suffixLoop, byteAt_of_lt (by omega), byteAt_of_lt (by omega), ok_bind, ok_bind, hrun,
        take_succ_eq_append_getElem (show c < child.length by omega),
        take_succ_eq_append_getElem (show p < parent.length by omega)]
      split
      case isTrue hne =>
        refine ⟨false, rfl, iff_of_false nofun ?_⟩
        rintro (heq | ⟨s, hs⟩)
        · exact hne (cons.inj (append_inj' heq rfl).2).1
        · rw [← cons_append, ← append_assoc] at hs
          exact hne (cons.inj (append_inj' hs rfl).2).1
      case isFalse heq =>
        refine ⟨r, rfl, ?_⟩
        rw [hr, not_not.mp heq, append_left_inj]
        refine or_congr Iff.rfl (exists_congr fun s => ?_)
        rw [← cons_append, ← append_assoc, append_left_inj]

/-- SUFFIX of names is suffix of labels, if the dotted string keeps them apart. -/
lemma Holds.suffix_spec (h : d.Holds L) (h' : e.Holds M) (hL : Apart L) (hM : Apart M) :
    d.suffix e = .ok (decide (M <:+ L)) := by
  by_cases hM' : M = []
  · have hlen : e.len = 1 := by rw [h'.len, hM']; rfl
    have hpos : 1 ≤ d.len := by rw [h.len]; simp [wireForm]
    rw [suffix, hlen, if_neg (not_not.mpr hpos), if_pos rfl, hM']
    simp
  · by_cases hL' : L = []
    · have hnot : ¬M <:+ L := fun hs => hM' (suffix_nil.mp (hL' ▸ hs))
      rw [suffix, h.len, h'.len, hL', length_wireForm_nil, length_wireForm hM', if_pos (by omega)]
      rw [hL'] at hnot
      simp [hnot]
    · rw [suffix, h.len, h'.len, length_wireForm hL', length_wireForm hM']
      have hiff := suffix_iff_intercalate hL' hM' (fun l hl => (hL l hl).1) fun l hl => (hM l hl).1
      rw [← text_cons hL', ← text_cons hM'] at hiff
      split
      case isTrue hlong =>
        have hnot : ¬M <:+ L := by
          rw [hiff]
          rintro (heq | ⟨s, hs⟩)
          · rw [heq] at hlong
            exact hlong le_rfl
          · rw [hs] at hlong
            simp at hlong
            omega
        simp [hnot]
      case isFalse hshort =>
        obtain ⟨r, hrun, hr⟩ := suffixLoop_spec d.nameBytes e.nameBytes (text M).length
          (text L).length (by omega) (by simp [h'.nameBytes]) (by simp [h.nameBytes])
        rw [h.nameBytes, h'.nameBytes, take_left, take_left, ← hiff] at hr
        rw [if_neg (by omega), h'.liteStrlen hM, h.liteStrlen hL, ok_bind, ok_bind, hrun]
        congr 1
        exact Bool.eq_iff_iff.mpr (hr.trans (decide_eq_true_iff).symm)

/-! ### The labels of a name that has been given -/

/-- What a name is made from. -/
inductive Input where
  | wire (dnsbuffer : Bytes) (size : ℕ)
  | string (name : Bytes) (size : ℕ)

def Input.construct : Input → Outcome DomainName
  | wire dnsbuffer size => ofWire dnsbuffer size
  | string name size => parse name size

def Input.Labels : Input → List Bytes → Prop
  | wire dnsbuffer _, L => Wired L ∧ wireForm L <+: dnsbuffer
  | string name size, L => L = stringLabels (charsOf name size)

def Input.Short : Input → Prop
  | wire _ _ => True
  | string name size => (charsOf name size).length < maxDnsNameLen

/-- The label bytes of a wire name are in the set. -/
def Input.Over (B : Set UInt8) (L : List Bytes) : Input → Prop
  | wire _ _ => ∀ l ∈ L, ∀ c ∈ l, c ∈ B
  | string _ _ => True

/-- COMPARES: names of the given labels are compared by them, up to case. -/
structure Compares (L M : List Bytes) (d e : DomainName) : Prop where
  eq : d.eq e = .ok (decide (lower L = lower M))
  suffix : d.suffix e = .ok (decide (lower M <:+ lower L))

/-- Bytes that the comparisons do not mistake. -/
def Plain (c : UInt8) : Prop := c ≠ charDot ∧ c ≠ 0 ∧ c ≠ charStar ∧ ¬(65 ≤ c ∧ c ≤ 90)

lemma Plain.toLower (h : Plain c) : toLower c = c := if_neg (by simpa using h.2.2.2)

lemma lower_of_plain (h : ∀ l ∈ L, ∀ c ∈ l, Plain c) : lower L = L := by
  have hmap : ∀ l ∈ L, l.map Crypto.toLower = l := fun l hl =>
    (map_congr_left fun c hc => (h l hl c hc).toLower).trans (map_id' l)
  exact (map_congr_left hmap).trans (map_id' L)

lemma apart_of_plain (h : ∀ l ∈ L, ∀ c ∈ l, Plain c) : Apart L := fun l hl =>
  ⟨fun hdot => (h l hl _ hdot).1 rfl, fun hzero => (h l hl _ hzero).2.1 rfl⟩

lemma apart_lower (h : Apart L) : Apart (lower L) := by
  intro l hl
  obtain ⟨m, hm, rfl⟩ := mem_map.mp hl
  have hnot : ∀ x : UInt8, isLetter x = false → x ∉ m → x ∉ m.map Crypto.toLower := by
    intro x hx hxm hxl
    obtain ⟨c, hc, hlow⟩ := mem_map.mp hxl
    exact hxm ((toLower_eq hx).mp hlow ▸ hc)
  exact ⟨hnot _ (by decide) (h m hm).1, hnot _ (by decide) (h m hm).2⟩

/-- A string is split at its dots, and ends before its first NUL. -/
lemma apart_stringLabels (name : Bytes) (size : ℕ) : Apart (stringLabels (charsOf name size)) := by
  unfold stringLabels
  split
  · exact fun l hl => absurd hl not_mem_nil
  · have hpart := of_mem_splitOn (x := charDot) (charsOf name size)
    exact fun l hl => ⟨fun hdot => (hpart l hl _ hdot).1 rfl, fun hzero => by
      simpa using mem_takeWhile_imp (hpart l hl _ hzero).2⟩

lemma Input.holds {i : Input} (hi : i.construct = .ok d) (hshort : i.Short) (hlabels : i.Labels L)
    (hplain : i.Over {c | Plain c} L) : d.Holds (lower L) ∧ d.numLabels = L.length ∧ Apart (lower L) := by
  cases i with
  | wire dnsbuffer size =>
    obtain ⟨L', hwired', ⟨r', hbuffer'⟩, hholds, hcount, -⟩ := ofWire_spec hi
    obtain ⟨hwired, r, hbuffer⟩ := hlabels
    obtain rfl := wireForm_inj hwired hwired' (hbuffer.trans hbuffer'.symm)
    rw [lower_of_plain hplain]
    refine ⟨hholds, hcount.trans (countP_eq_length.mpr fun l hl => ?_), apart_of_plain hplain⟩
    rw [decide_eq_true_iff]
    rintro rfl
    exact (hplain _ hl charStar (mem_singleton_self _)).2.2.1 rfl
  | string name size =>
    rcases parse_spec hi with ⟨-, hholds, hcount⟩ | ⟨hlong, -⟩
    · obtain rfl := hlabels
      exact ⟨hholds, hcount, apart_lower (apart_stringLabels name size)⟩
    · exact absurd (lt_trans hshort hlong) (lt_irrefl _)

lemma not_compares_long {i : Input} (hi : i.construct = .ok d) (hlong : ¬i.Short) : ¬Compares L L d d := by
  intro h
  cases i with
  | wire dnsbuffer size => exact hlong trivial
  | string name size =>
    rcases parse_spec hi with ⟨hshort, -⟩ | ⟨-, hzero⟩
    · exact hlong hshort
    · have heq := h.eq
      rw [eq, if_neg (by simp), liteStrlen_of_not_mem hzero] at heq
      cases heq

/-! ### Bytes that are mistaken -/

lemma upper_mistaken : ∀ n < 91, 65 ≤ n → (parse [UInt8.ofNat n, 0] 2 >>= fun d =>
    ofWire [1, UInt8.ofNat n, 0] 3 >>= fun e => d.eq e) = .ok false := by
  decide

lemma star_mistaken : (parse (charStar :: replicate 255 0) 256 >>= fun d =>
    ofWire [1, charStar, 0] 3 >>= fun e => d.eq e) = .ok false := by
  decide +kernel

lemma zero_mistaken : (ofWire [1, 0, 2, 0, 0, 0] 6 >>= fun d => ofWire [2, 0, 0, 1, 0, 0] 6 >>= fun e => d.eq e) =
    .ok true := by
  decide

lemma dot_mistaken : (ofWire [3, charDot, charDot, charDot, 0] 5 >>= fun d => ofWire [1, charDot, 0] 3 >>= fun e =>
    d.suffix e) = .ok true := by
  decide

/-- If all names over some bytes compare by labels, the bytes are plain. -/
lemma plain_of_compares {B : Set UInt8} (h : ∀ i j L M d e, Input.Labels i L → Input.Labels j M →
    i.Over B L → j.Over B M → i.Short → j.Short → i.construct = .ok d → j.construct = .ok e → Compares L M d e) :
    ∀ c ∈ B, Plain c := by
  intro c hc
  refine ⟨?_, ?_, ?_, ?_⟩
  · rintro rfl
    obtain ⟨d, hd, e, he, hsuffix⟩ := of_bind2 dot_mistaken
    have hcompare := h (.wire _ _) (.wire _ _) [[charDot, charDot, charDot]] [[charDot]] d e
      ⟨by simp [Wired], [], rfl⟩ ⟨by simp [Wired], [], rfl⟩ (by simpa [Input.Over] using hc) (by simpa [Input.Over] using hc)
      trivial trivial hd he
    rw [hcompare.suffix] at hsuffix
    exact absurd hsuffix (by decide)
  · rintro rfl
    obtain ⟨d, hd, e, he, heq⟩ := of_bind2 zero_mistaken
    have hcompare := h (.wire _ _) (.wire _ _) [[0], [0, 0]] [[0, 0], [0]] d e
      ⟨by simp [Wired], [], rfl⟩ ⟨by simp [Wired], [], rfl⟩ (by simpa [Input.Over] using hc) (by simpa [Input.Over] using hc)
      trivial trivial hd he
    rw [hcompare.eq] at heq
    exact absurd heq (by decide)
  · rintro rfl
    obtain ⟨d, hd, e, he, heq⟩ := of_bind2 star_mistaken
    have hchars : charsOf (charStar :: replicate 255 0) 256 = [charStar] := by decide +kernel
    have hcompare := h (.string _ _) (.wire _ _) [[charStar]] [[charStar]] d e
      (by rw [Input.Labels, hchars]; rfl) ⟨by simp [Wired], [], rfl⟩ trivial (by simpa [Input.Over] using hc)
      (by rw [Input.Short, hchars]; decide) trivial hd he
    rw [hcompare.eq] at heq
    exact absurd heq (by decide)
  · intro hupper
    have hn := upper_mistaken c.toNat (lt_succ_of_le (UInt8.le_iff_toNat_le.mp hupper.2))
      (UInt8.le_iff_toNat_le.mp hupper.1)
    rw [UInt8.ofNat_toNat] at hn
    obtain ⟨d, hd, e, he, heq⟩ := of_bind2 hn
    have hne0 : c ≠ 0 := by rintro rfl; exact absurd hupper.1 (by decide)
    have hdot : c ≠ charDot := by rintro rfl; exact absurd hupper.1 (by decide)
    have hspace : c ≠ charSpace := by rintro rfl; exact absurd hupper.1 (by decide)
    have hchars : charsOf [c, 0] 2 = [c] := by simp [charsOf, hne0]
    have hcompare := h (.string _ _) (.wire _ _) [[c]] [[c]] d e
      (by rw [Input.Labels, hchars, stringLabels, if_neg (by simpa using hspace),
        splitOn_eq_singleton (by simpa using hdot.symm)])
      ⟨by simp [Wired], [], rfl⟩ trivial (by simpa [Input.Over] using hc)
      (by rw [Input.Short, hchars, length_singleton]; decide) trivial hd he
    rw [hcompare.eq] at heq
    simp at heq

/-- NAMES: strings, and wire names over given bytes, compare by labels exactly if the bytes are plain, strings of 255
    characters or more apart, which give names that do not compare at all. -/
theorem compares_iff_plain (B : Set UInt8) : ((∀ i j L M d e, Input.Labels i L → Input.Labels j M →
      i.Over B L → j.Over B M → i.Short → j.Short → i.construct = .ok d → j.construct = .ok e → Compares L M d e) ↔
        ∀ c ∈ B, Plain c) ∧
    ∀ (i : Input) (L : List Bytes) (d : DomainName), i.construct = .ok d → ¬i.Short → ¬Compares L L d d := by
  refine ⟨⟨plain_of_compares, ?_⟩, fun i L d hi hlong => not_compares_long hi hlong⟩
  intro hplain i j L M d e hL hM hLB hMB hi hj hd he
  have hover : ∀ {i : Input} {L : List Bytes}, i.Over B L → i.Over {c | Plain c} L := by
    intro i L hB
    cases i with
    | wire => exact fun l hl c hc => hplain c (hB l hl c hc)
    | string => trivial
  obtain ⟨hholds, hcount, hapart⟩ := Input.holds hd hi hL (hover hLB)
  obtain ⟨hholds', hcount', hapart'⟩ := Input.holds he hj hM (hover hMB)
  refine ⟨?_, hholds.suffix_spec hholds' hapart hapart'⟩
  rw [hholds.eq_spec hholds' hapart hapart', hcount, hcount', decide_eq_decide.mpr (and_iff_right_of_imp fun heq => ?_)]
  simpa [lower] using congrArg length heq

/-- Names do not compare by labels: a dot in a label is taken for the end of one. -/
theorem not_compares : ¬∀ (i j : Input) (L M : List Bytes) (d e : DomainName), i.Labels L → j.Labels M →
    i.construct = .ok d → j.construct = .ok e → Compares L M d e := by
  intro h
  obtain ⟨d, hd, e, he, hsuffix⟩ := of_bind2 dot_mistaken
  have hcompare := h (.wire _ _) (.wire _ _) [[charDot, charDot, charDot]] [[charDot]] d e
    ⟨by simp [Wired], [], rfl⟩ ⟨by simp [Wired], [], rfl⟩ hd he
  rw [hcompare.suffix] at hsuffix
  exact absurd hsuffix (by decide)

end DomainName

end Embassies.Crypto
