import Embassies.Crypto.DomainNameLaws
import Embassies.Lib.Writer

/-! Names on the wire.

    `serialize` cuts the dotted string of a name into labels again, in lower case. A space is taken for the root
    wherever it stands, and leaves a byte of the buffer as it was. A name that has been copied has passed the
    check for letters, digits and hyphens, so it has no space in it, unless it is the root. -/

namespace Embassies.Crypto.DomainName

open List Except Throwing

/-! ### What `serialize` writes -/

lemma put_eq_ok {buffer b' x : Bytes} {off : ℕ} :
    put buffer off x = .ok b' ↔ off + x.length ≤ buffer.length ∧ b' = splice buffer off x := by
  rw [put, lift_eq_ok, writeAt_eq_ok]

lemma writes_put (x : Bytes) : Writes (fun b off => put b off x) x := writes_writeAt x

lemma put_middle {a c : Bytes} {h x : UInt8} {off : ℕ} (ha : a.length = off) :
    put (a ++ h :: c) off [x] = .ok (a ++ x :: c) := by
  rw [put_eq_ok]
  refine ⟨by simp; omega, ?_⟩
  rw [splice, ← ha, take_left, length_singleton, drop_append]
  simp

/-- The wire form of a string, in lower case, with a label that has been begun. -/
def wireLabels : (label : Bytes) → Bytes → Bytes
  | label, [] => UInt8.ofNat label.length :: label
  | label, c :: cs =>
    if c = charDot then UInt8.ofNat label.length :: (label ++ wireLabels [] cs)
    else wireLabels (label ++ [toLower c]) cs

lemma length_wireLabels : ∀ (cs label : Bytes), (wireLabels label cs).length = label.length + cs.length + 1
  | [], label => by simp [wireLabels]
  | c :: cs, label => by
    rw [wireLabels]
    split
    · simp only [length_cons, length_append, length_wireLabels cs, length_nil]
      omega
    · simp only [length_wireLabels cs, length_cons, length_append, length_nil]
      omega

/-- LOOP: behind the label that has been begun, the labels that are left are written. The byte in front of a
    label is a hole until the label ends. -/
lemma serializeLoop_spec : ∀ (cs label front back : Bytes) (hole : UInt8) (off pos i : ℕ), front.length = off + pos →
    i = pos + label.length → charSpace ∉ cs → cs.length ≤ back.length →
      serializeLoop off cs i pos label.length (front ++ hole :: (label ++ back)) =
        .ok (front ++ (wireLabels label cs ++ back.drop cs.length)) := by
  intro cs
  induction cs with
  | nil =>
    intro label front back hole off pos i hfront hi _ _
    rw [serializeLoop, put_middle hfront]
    simp [wireLabels]
  | cons c cs ih =>
    intro label front back hole off pos i hfront hi hspace hback
    rw [mem_cons, not_or] at hspace
    cases back with
    | nil => simp at hback
    | cons h' back =>
      rw [length_cons, length_cons] at hback
      rw [serializeLoop, wireLabels]
      by_cases hdot : c = charDot
      · -- the label ends, and the next byte is the hole of the next one
        have hnext := ih [] (front ++ UInt8.ofNat label.length :: label) back h' off (i + 1) (i + 1)
          (by simp; omega) (by simp) hspace.2 (by omega)
        rw [if_pos hdot, if_pos hdot, put_middle hfront, ok_bind]
        simpa using hnext
      · have hput : put (front ++ hole :: (label ++ h' :: back)) (off + i + 1) [toLower c] =
            .ok (front ++ hole :: ((label ++ [toLower c]) ++ back)) := by
          have := @put_middle (front ++ hole :: label) back h' (toLower c) (off + i + 1) (by simp; omega)
          simpa using this
        have hnext := ih (label ++ [toLower c]) front back hole off pos (i + 1) hfront (by simp; omega) hspace.2 (by omega)
        rw [if_neg hdot, if_neg hdot, if_neg (Ne.symm hspace.1), hput, ok_bind]
        simpa using hnext

lemma length_of_put {buffer b' x : Bytes} {off : ℕ} (h : put buffer off x = .ok b') : b'.length = buffer.length := by
  obtain ⟨hfits, rfl⟩ := put_eq_ok.mp h
  exact length_splice hfits

lemma serializeLoop_length : ∀ (cs : Bytes) (off i pos len : ℕ) (buffer b' : Bytes),
    serializeLoop off cs i pos len buffer = .ok b' → b'.length = buffer.length := by
  intro cs
  induction cs with
  | nil =>
    intro off i pos len buffer b' h
    exact length_of_put h
  | cons c cs ih =>
    intro off i pos len buffer b' h
    rw [serializeLoop] at h
    split at h
    · obtain ⟨b1, hput, hloop⟩ := of_bind h
      exact (ih _ _ _ _ _ _ hloop).trans (length_of_put hput)
    · split at h <;>
      · obtain ⟨b1, hput, hloop⟩ := of_bind h
        exact (ih _ _ _ _ _ _ hloop).trans (length_of_put hput)

/-- A name of characters without a space is written whole. -/
lemma serialize_of_fits {d : DomainName} {t b : Bytes} {off : ℕ} (hbytes : d.nameBytes = t ++ [0])
    (hlen : d.len = t.length + 2) (hzero : 0 ∉ t) (hspace : charSpace ∉ t) (hfits : off + (t.length + 2) ≤ b.length) :
    d.serialize b off = .ok (splice b off (wireLabels [] t ++ [0])) := by
  have hwire := length_wireLabels t []
  rw [length_nil, Nat.zero_add] at hwire
  -- the buffer in front of the name, the first byte of the name, and the rest
  obtain ⟨hole, back, hback⟩ : ∃ hole back, b.drop off = hole :: back :=
    exists_cons_of_length_pos (by rw [length_drop]; omega)
  have hlenBack : back.length + 1 = b.length - off := by
    rw [← length_drop, hback, length_cons]
  obtain ⟨z, rest, hrest⟩ : ∃ z rest, back.drop t.length = z :: rest :=
    exists_cons_of_length_pos (by rw [length_drop]; omega)
  have hsplit : b = b.take off ++ hole :: ([] ++ back) := by
    rw [nil_append, ← hback, take_append_drop]
  have hfront : (b.take off).length = off + 0 := by
    rw [length_take]
    omega
  have hloop := serializeLoop_spec t [] (b.take off) back hole off 0 0 hfront rfl hspace (by omega)
  rw [← hsplit, length_nil, hrest, ← append_assoc] at hloop
  have hend : rest = b.drop (off + (t.length + 2)) := by
    have hdrop : b.drop (off + 1) = back := by rw [← drop_drop, hback, drop_succ_cons, drop_zero]
    rw [show off + (t.length + 2) = off + 1 + (t.length + 1) by omega, ← drop_drop, hdrop, ← drop_drop, hrest,
      drop_succ_cons, drop_zero]
  rw [serialize, hbytes, liteStrlen_append hzero, ok_bind, take_left, hloop, ok_bind, hlen,
    put_middle (by rw [length_append, hwire, hfront]; omega), splice, length_append, hwire, hend]
  simp

lemma serialize_writes_chars {d : DomainName} {t : Bytes} (hbytes : d.nameBytes = t ++ [0]) (hlen : d.len = t.length + 2)
    (hzero : 0 ∉ t) (hspace : charSpace ∉ t) : Writes d.serialize (wireLabels [] t ++ [0]) := by
  intro b off b'
  have hwire : (wireLabels [] t ++ [0]).length = t.length + 2 := by
    rw [length_append, length_wireLabels, length_nil, Nat.zero_add]
    rfl
  rw [hwire]
  constructor
  · intro h
    have hfits : off + (t.length + 2) ≤ b.length := by
      rw [serialize, hbytes, liteStrlen_append hzero, ok_bind, take_left] at h
      obtain ⟨b1, hloop, hput⟩ := of_bind h
      obtain ⟨hin, -⟩ := put_eq_ok.mp hput
      rw [serializeLoop_length _ _ _ _ _ _ _ hloop, length_singleton, hlen] at hin
      omega
    rw [serialize_of_fits hbytes hlen hzero hspace hfits] at h
    exact ⟨hfits, (ok.inj h).symm⟩
  · rintro ⟨hfits, rfl⟩
    exact serialize_of_fits hbytes hlen hzero hspace hfits

lemma wireLabels_eq : ∀ (cs label : Bytes), charDot ∉ label →
    wireLabels label cs ++ [0] = wireForm ((label ++ cs.map toLower).splitOn charDot) := by
  intro cs
  induction cs with
  | nil =>
    intro label hlabel
    rw [map_nil, append_nil, splitOn_eq_singleton hlabel]
    simp [wireLabels, wireForm]
  | cons c cs ih =>
    intro label hlabel
    rw [wireLabels]
    split
    case isTrue hdot =>
      have hlow : toLower c = charDot := by rw [hdot]; rfl
      rw [map_cons, hlow, splitOn_append_cons_self, splitOn_eq_singleton hlabel, singleton_append,
        wireForm_cons, cons_append, append_assoc, ih [] (by simp), nil_append]
    case isFalse hdot =>
      have hlow : toLower c ≠ charDot := fun h => hdot ((toLower_eq (by decide)).mp h)
      rw [ih (label ++ [toLower c]) (by simpa using ⟨hlabel, Ne.symm hlow⟩)]
      simp

lemma serialize_root_of_fits {d : DomainName} {b : Bytes} {off : ℕ} (hbytes : d.nameBytes = [charSpace, 0])
    (hlen : d.len = 1) (hfits : off + 1 ≤ b.length) : d.serialize b off = .ok (splice b off [0]) := by
  obtain ⟨hole, rest, hrest⟩ : ∃ hole rest, b.drop off = hole :: rest :=
    exists_cons_of_length_pos (by rw [length_drop]; omega)
  have hfront : (b.take off).length = off := by
    rw [length_take]
    omega
  have hsplit : b = b.take off ++ hole :: rest := by rw [← hrest, take_append_drop]
  have hsplice : splice b off [0] = b.take off ++ 0 :: rest := by
    rw [splice, length_singleton, ← drop_drop, hrest]
    rfl
  have hstrlen : liteStrlen [charSpace, 0] = .ok 1 := rfl
  rw [hsplice, serialize, hbytes, hlen, hstrlen, ok_bind]
  conv_lhs => rw [hsplit]
  simp [serializeLoop, put_middle hfront, show charSpace ≠ charDot by decide]

lemma serialize_writes_root {d : DomainName} (hbytes : d.nameBytes = [charSpace, 0]) (hlen : d.len = 1) :
    Writes d.serialize [0] := by
  intro b off b'
  constructor
  · intro h
    have hfits : off + 1 ≤ b.length := by
      rw [serialize, hbytes, hlen, Nat.add_sub_cancel] at h
      obtain ⟨l, -, b1, hloop, hput⟩ := of_bind2 h
      obtain ⟨hin, -⟩ := put_eq_ok.mp hput
      rwa [serializeLoop_length _ _ _ _ _ _ _ hloop] at hin
    rw [serialize_root_of_fits hbytes hlen hfits] at h
    exact ⟨hfits, (ok.inj h).symm⟩
  · rintro ⟨hfits, rfl⟩
    exact serialize_root_of_fits hbytes hlen hfits

lemma lower_splitOn_text {L : List Bytes} (h : L ≠ []) (hL : Apart L) :
    ((text L).map toLower).splitOn charDot = lower L := by
  have hdots : ∀ l ∈ lower L, charDot ∉ l := by
    intro l hl hdot
    obtain ⟨m, hm, rfl⟩ := mem_map.mp hl
    obtain ⟨c, hc, hlow⟩ := mem_map.mp hdot
    rw [toLower_eq (by decide)] at hlow
    exact (hL m hm).1 (hlow ▸ hc)
  have hne : lower L ≠ [] := by simpa [lower] using h
  rw [← text_lower, text_cons hne, splitOn_intercalate _ hdots hne]

/-- WRITE: a name of labels without dots, NULs and spaces is written as their wire form in lower case. -/
lemma Holds.serialize_writes {d : DomainName} {L : List Bytes} (h : d.Holds L) (hL : Apart L)
    (hspace : ∀ l ∈ L, charSpace ∉ l) : Writes d.serialize (wireForm (lower L)) := by
  by_cases hroot : L = []
  · subst hroot
    exact serialize_writes_root h.nameBytes h.len
  · have hlen := h.len.trans (length_wireForm hroot)
    have hspace' : charSpace ∉ text L := by
      intro hc
      rcases mem_text hroot hc with hdot | ⟨l, hl, hc⟩
      · exact absurd hdot (by decide)
      · exact hspace l hl hc
    have hwrites := serialize_writes_chars h.nameBytes hlen hL.zero_not_mem hspace'
    rwa [wireLabels_eq _ [] (by simp), nil_append, lower_splitOn_text hroot hL] at hwrites

/-! ### What a copy has passed -/

/-- Characters that pass the check. -/
def Ldh (c : UInt8) : Prop := isLetterDigitHyphen c = true ∨ c = charDot

lemma checkLabelLoop_spec (name : Bytes) (start : ℕ) : ∀ (left labelLen m : ℕ),
    checkLabelLoop name start left labelLen = .ok m → labelLen ≤ m ∧ m ≤ labelLen + left ∧
      ∀ k, labelLen ≤ k → k < m → ∃ c, name[start + k]? = some c ∧ isLetterDigitHyphen c = true := by
  intro left
  induction left with
  | zero =>
    intro labelLen m h
    cases h
    exact ⟨le_rfl, le_rfl, fun k hk hlt => absurd hlt (not_lt.mpr hk)⟩
  | succ left ih =>
    intro labelLen m h
    obtain ⟨c, hc, h⟩ := of_bind h
    split at h
    case isTrue hldh =>
      obtain ⟨hle, hm, hchars⟩ := ih (labelLen + 1) m h
      refine ⟨by omega, by omega, fun k hk hlt => ?_⟩
      rcases Nat.eq_or_lt_of_le hk with rfl | hk
      · exact ⟨c, byteAt_eq_ok.mp hc, hldh⟩
      · exact hchars k hk hlt
    case isFalse =>
      cases h
      exact ⟨le_rfl, by omega, fun k hk hlt => absurd hlt (not_lt.mpr hk)⟩

lemma isLetterDigitHyphen_of_isLetter {c : UInt8} (h : isLetter c = true) : isLetterDigitHyphen c = true := by
  simp [isLetterDigitHyphen, isLetterDigit, h]

lemma checkLabel_spec {name : Bytes} {start len : ℕ} {v : ℤ} (h : checkLabel name start len = .ok v) :
    v = -1 ∨ ∃ m : ℕ, v = m ∧ 1 ≤ m ∧ m ≤ len ∧
      ∀ k < m, ∃ c, name[start + k]? = some c ∧ isLetterDigitHyphen c = true := by
  unfold checkLabel at h
  split at h
  · exact .inl (ok.inj h).symm
  case isFalse hlen =>
    obtain ⟨first, hfirst, h⟩ := of_bind h
    split at h
    · exact .inl (ok.inj h).symm
    case isFalse hletter =>
      obtain ⟨m, hloop, last, -, h⟩ := of_bind2 h
      obtain ⟨hle, hm, hchars⟩ := checkLabelLoop_spec name start _ _ _ hloop
      have hv := ok.inj h
      split at hv
      · refine .inr ⟨m, hv.symm, hle, by omega, fun k hk => ?_⟩
        rcases Nat.eq_zero_or_pos k with rfl | hpos
        · exact ⟨first, byteAt_eq_ok.mp hfirst, isLetterDigitHyphen_of_isLetter (by simpa using hletter)⟩
        · exact hchars k hpos hk
      · exact .inl hv.symm

/-- A subdomain that is shorter than 255 characters, in an array of 255, is checked as it should be: the result of
    `checkLabel` for a bad label, 255, leads out of the array. -/
lemma checkSubdomain_spec {name : Bytes} (hname : name.length ≤ 255) : ∀ (fuel start len : ℕ) (r : ℤ),
    len < 255 → checkSubdomain name fuel start len = .ok r → r ≠ -1 →
      ∀ k < len, ∃ c, name[start + k]? = some c ∧ Ldh c := by
  intro fuel
  induction fuel with
  | zero =>
    intro start len r _ h
    cases h
  | succ fuel ih =>
    intro start len r hlen h hr k hk
    rw [checkSubdomain, if_neg (by omega)] at h
    obtain ⟨v, hv, h⟩ := of_bind h
    dsimp only at h
    rcases checkLabel_spec hv with rfl | ⟨m, rfl, hpos, hm, hchars⟩
    · -- a bad label
      have h255 : ((-1 : ℤ) % 256).toNat = 255 := by decide
      rw [h255, if_neg (by omega)] at h
      split at h
      · exact absurd (ok.inj h).symm hr
      · obtain ⟨c, hc, -⟩ := of_bind h
        obtain ⟨hin, -⟩ := List.getElem?_eq_some_iff.mp (byteAt_eq_ok.mp hc)
        omega
    · have hmod : ((m : ℤ) % 256).toNat = m := by omega
      rw [hmod] at h
      by_cases hall : m = len
      · obtain ⟨c, hc, hldh⟩ := hchars k (by omega)
        exact ⟨c, hc, .inl hldh⟩
      · have hsub : sub32 len 2 = len - 2 := sub32_of_le (by omega) (by omega)
        rw [if_neg hall, hsub] at h
        split at h
        · exact absurd (ok.inj h).symm hr
        case isFalse hroom =>
          obtain ⟨c, hc, h⟩ := of_bind h
          split at h
          case isFalse => exact absurd (ok.inj h).symm hr
          case isTrue hdot =>
            have hrest : sub32 (sub32 len m) 1 = len - m - 1 := by
              rw [sub32_of_le (by omega) hm, sub32_of_le (by omega) (by omega)]
            rw [hrest] at h
            obtain ⟨r', hrun, h⟩ := of_bind h
            have hr' : r' ≠ -1 := by
              rintro rfl
              exact hr (ok.inj h).symm
            rcases Nat.lt_trichotomy k m with hlt | rfl | hgt
            · obtain ⟨c, hc, hldh⟩ := hchars k hlt
              exact ⟨c, hc, .inl hldh⟩
            · exact ⟨c, byteAt_eq_ok.mp hc, .inr hdot⟩
            · have hnext := ih (start + m + 1) (len - m - 1) r' (by omega) hrun hr' (k - m - 1) (by omega)
              rwa [show start + m + 1 + (k - m - 1) = start + k by omega] at hnext

lemma checkDomainName_spec {name : Bytes} {len : ℕ} (hname : name.length ≤ 255) (hlen : len < 255)
    (h : checkDomainName name len = .ok true) :
    (len = 1 ∧ name[0]? = some charSpace) ∨ ∀ k < len, ∃ c, name[k]? = some c ∧ Ldh c := by
  unfold checkDomainName at h
  split at h
  · exact absurd (ok.inj h) (by decide)
  · obtain ⟨first, hfirst, h⟩ := of_bind h
    split at h
    case isTrue hroot => exact .inl ⟨hroot.1, hroot.2 ▸ byteAt_eq_ok.mp hfirst⟩
    case isFalse =>
      obtain ⟨r, hrun, h⟩ := of_bind h
      have hr : r = len := by simpa using ok.inj h
      refine .inr fun k hk => ?_
      have hchars := checkSubdomain_spec hname _ _ _ _ hlen hrun (by omega) k hk
      rwa [Nat.zero_add] at hchars

/-- COPY: a name of characters that can be copied is the root or made of letters, digits, hyphens and dots, and
    the copy has its labels in lower case. -/
lemma copy_spec {d e : DomainName} {t : Bytes} (hbytes : d.nameBytes = t ++ [0]) (hzero : 0 ∉ t) (hlen : t.length < 255)
    (h : d.copy = .ok e) : (t = [charSpace] ∨ ∀ c ∈ t, Ldh c) ∧ e.Holds (lower (stringLabels t)) ∧
      e.numLabels = (stringLabels t).length := by
  rw [copy, hbytes, liteStrlen_append hzero, ok_bind] at h
  have hchars : charsOf (t ++ [0]) (t.length + 1) = t := by
    have htake : (t ++ [0]).take (t.length + 1) = t ++ [0] := take_of_length_le (by simp)
    rw [charsOf, htake, takeWhile_append_of_pos (by intro c hc; simpa using fun h : c = 0 => hzero (h ▸ hc))]
    simp
  refine ⟨?_, ?_⟩
  · obtain ⟨ok, hok, h⟩ := of_bind h
    have hsub : sub32 (t.length + 1) 1 = t.length := sub32_of_le (by omega) (by omega)
    rw [hsub] at hok
    cases ok with
    | false => cases h
    | true =>
      rcases checkDomainName_spec (by simp; omega) hlen hok with ⟨hone, hspace⟩ | hldh
      · obtain ⟨c, rfl⟩ := length_eq_one_iff.mp hone
        simp at hspace
        exact .inl (by rw [hspace])
      · refine .inr fun c hc => ?_
        obtain ⟨k, hk, rfl⟩ := getElem_of_mem hc
        obtain ⟨c, hc, hldh⟩ := hldh k hk
        rw [List.getElem?_append_left hk, List.getElem?_eq_getElem hk] at hc
        exact Option.some.inj hc ▸ hldh
  · rcases parse_spec h with ⟨-, hholds⟩ | ⟨hlong, -⟩
    · rwa [hchars] at hholds
    · rw [hchars, maxDnsNameLen] at hlong
      omega

end Embassies.Crypto.DomainName
