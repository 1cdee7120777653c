import Mathlib.Algebra.Group.Nat.Defs
import Mathlib.Data.List.Infix
import Mathlib.Data.List.Nodup

/-! Internal addresses (`PicoManager.get_next_internal_ip`).

    The row `last_internal_ip` holds the last address as text; a call reads it, adds one, writes it back and returns
    it. The loop over the octets carries to the octet on the left but never resets the octet the carry comes from, so the
    last octet counts on past 255. -/

namespace Embassies.Hub

open List

/-- `int(octet)` of decimal digits, which is all the row holds. -/
def int (octet : List Char) : Option ℕ :=
  if octet = [] ∨ ¬octet.all Char.isDigit then none else some (Nat.ofDigitChars 10 octet 0)

/-- `str(o)`. -/
def str (o : ℕ) : List Char := Nat.toDigits 10 o

/-- `octets[i] += 1`; `none` is an `IndexError`. -/
def increment (octets : List ℕ) (i : ℕ) : Option (List ℕ) := octets[i]?.map fun o => octets.set i (o + 1)

def carryRound (octets : List ℕ) (i : ℕ) : Option (List ℕ) := do
  if 255 < (← octets[i]?) then increment octets (i - 1) else pure octets

/-- `'.'.join([str(o) for o in octets])`. -/
def joinOctets (octets : List ℕ) : List Char := ['.'].intercalate (octets.map str)

/-- `get_next_internal_ip`: the row's new value, which is also what is returned. -/
def getNextInternalIp (last : List Char) : Option (List Char) := do
  let octets ← (last.splitOn '.').mapM int
  let octets ← increment octets 3
  let octets ← [3, 2, 1].foldlM carryRound octets
  pure (joinOctets octets)

/-- What `n` successive calls return. -/
def calls : ℕ → List Char → Option (List (List Char))
  | 0, _ => some []
  | n + 1, last => do
    let ip ← getNextInternalIp last
    pure (ip :: (← calls n ip))

/-- The address that is a 32-bit number. -/
def address (ip : ℕ) : List Char := joinOctets [ip / 2 ^ 24, ip / 2 ^ 16 % 256, ip / 2 ^ 8 % 256, ip % 256]

lemma mapM_int_joinOctets {octets : List ℕ} (h : octets ≠ []) :
    ((joinOctets octets).splitOn '.').mapM int = some octets := by
  have hdigit : ∀ {o : ℕ} {c : Char}, c ∈ str o → c.isDigit := Nat.isDigit_of_mem_toDigits (by decide) le_rfl
  have hint : ∀ o, int (str o) = some o := by
    intro o
    have hall : (str o).all Char.isDigit = true := all_eq_true.mpr fun c hc => hdigit hc
    have hnil : str o ≠ [] := Nat.toDigits_ne_nil
    rw [int, if_neg (not_or_intro hnil (not_not_intro hall)), str, Nat.ofDigitChars_ten_toDigits]
  rw [joinOctets, splitOn_intercalate '.' ?_ (by simpa using h)]
  · clear h
    induction octets with
    | nil => rfl
    | cons o octets ih => simp [hint, ih]
  · rintro _ ho hdot
    obtain ⟨o, -, rfl⟩ := mem_map.mp ho
    exact absurd (hdigit hdot) (by decide)

lemma joinOctets_inj {o o' : ℕ} {os os' : List ℕ} (h : joinOctets (o :: os) = joinOctets (o' :: os')) :
    o :: os = o' :: os' := by
  have hread := mapM_int_joinOctets (cons_ne_nil o os)
  rw [h, mapM_int_joinOctets (cons_ne_nil _ _)] at hread
  exact (Option.some.inj hread).symm

lemma address_injective : Function.Injective address := by
  intro ip ip' h
  have hoctets := joinOctets_inj h
  simp only [cons.injEq, and_true] at hoctets
  omega

/-- STEP: the last octet counts on, which is right while it is in range. -/
lemma getNextInternalIp_address (ip : ℕ) : ∃ a b c,
    getNextInternalIp (address ip) = some (joinOctets [a, b, c, ip % 256 + 1]) ∧
      (ip % 256 < 255 → joinOctets [a, b, c, ip % 256 + 1] = address (ip + 1)) := by
  have hround : ∀ a b c d : ℕ, carryRound [a, b, c, d] 3 = some [a, b, if 255 < d then c + 1 else c, d] ∧
      carryRound [a, b, c, d] 2 = some [a, if 255 < c then b + 1 else b, c, d] ∧
      carryRound [a, b, c, d] 1 = some [if 255 < b then a + 1 else a, b, c, d] := by
    intro a b c d
    refine ⟨?_, ?_, ?_⟩ <;> change (if 255 < _ then _ else _) = _ <;> split <;> rfl
  have hinc : ∀ a b c d : ℕ, increment [a, b, c, d] 3 = some [a, b, c, d + 1] := fun _ _ _ _ => rfl
  simp only [getNextInternalIp, address, mapM_int_joinOctets (cons_ne_nil _ _), hinc, foldlM_cons, foldlM_nil, hround,
    Option.bind_eq_bind, Option.bind_some, Option.pure_def]
  refine ⟨_, _, _, rfl, fun hlt => congrArg joinOctets ?_⟩
  rw [if_neg (show ¬255 < ip % 256 + 1 by omega), if_neg (show ¬255 < ip / 2 ^ 8 % 256 by omega),
    if_neg (show ¬255 < ip / 2 ^ 16 % 256 by omega)]
  simp only [cons.injEq, and_true]
  omega

/-- RUN: the calls return the next addresses as long as the last octet does not pass 255. -/
lemma calls_eq_iff (n : ℕ) : ∀ ip, calls n (address ip) = some ((range' (ip + 1) n).map address) ↔ ip % 256 + n ≤ 255 := by
  induction n with
  | zero => exact fun ip => iff_of_true rfl (by omega)
  | succ n ih =>
    intro ip
    obtain ⟨a, b, c, hnext, hstay⟩ := getNextInternalIp_address ip
    simp only [calls, hnext, range'_succ, map_cons, Option.bind_eq_bind, Option.bind_some, Option.pure_def]
    by_cases hlt : ip % 256 < 255
    · rw [hstay hlt, show ip % 256 + (n + 1) = (ip + 1) % 256 + n by omega, ← ih]
      simp [Option.bind_eq_some_iff]
    · refine iff_of_false (fun h => ?_) (by omega)
      obtain ⟨ips, -, hips⟩ := Option.bind_eq_some_iff.mp h
      have hlast := joinOctets_inj (cons.inj (Option.some.inj hips)).1
      simp only [cons.injEq, and_true] at hlast
      omega

/-- ASSIGNMENT: `n` calls return the next `n` addresses, all distinct, exactly if the last octet does not pass 255. -/
theorem calls_successors_iff (ip n : ℕ) : (∃ ips, calls n (address ip) = some ips ∧
    ips = (range' (ip + 1) n).map address ∧ ips.Nodup) ↔ ip % 256 + n ≤ 255 := by
  rw [← calls_eq_iff]
  constructor
  · rintro ⟨_, h, rfl, -⟩
    exact h
  · exact fun h => ⟨_, h, rfl, (nodup_range' ..).map address_injective⟩

/-- The address after `10.0.0.255` is `10.0.1.256`. -/
theorem not_calls_successors : calls 1 "10.0.0.255".toList = some ["10.0.1.256".toList] ∧
    ¬∀ ip n, ∃ ips, calls n (address ip) = some ips ∧ ips = (range' (ip + 1) n).map address ∧ ips.Nodup := by
  refine ⟨by decide, fun h => ?_⟩
  obtain ⟨ips, hcalls, hips, -⟩ := h (10 * 2 ^ 24 + 255) 1
  have hreturned : calls 1 (address (10 * 2 ^ 24 + 255)) = some ["10.0.1.256".toList] := by decide
  have hnext : (range' (10 * 2 ^ 24 + 255 + 1) 1).map address = ["10.0.1.0".toList] := by decide
  rw [hips, hnext, hreturned] at hcalls
  exact absurd hcalls (by decide)

end Embassies.Hub
