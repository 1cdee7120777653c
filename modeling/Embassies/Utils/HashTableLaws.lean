import Embassies.Utils.HashTable
import Mathlib.Data.Finset.Card
import Mathlib.Data.List.Pairwise

/-! The hash table refines a finite set.

    `Stored` is the invariant of a table. Its `potential` is the argument that the old sub-table is drained in time:
    elements of the old sub-table count twice, and their number with the others stays below four for each new bucket. An
    insertion adds one to it and the shift that follows takes one away; when the load factor passes its limit the bound
    leaves no room for an element in the old sub-table. -/

namespace Embassies.Utils

open Checked List Subtable Nat HashTable

variable {α : Type} {K : KeyFuncs α}

namespace Subtable

variable {st : Subtable α}
variable {i k : ℕ} {x key : α}

/-- What a sub-table holds. -/
def elements (st : Subtable α) : List α := st.buckets.flatten

/-- A sub-table whose elements are in their buckets and counted. -/
structure Placed (K : KeyFuncs α) (st : Subtable α) : Prop where
  pos : 0 < st.numBuckets
  placed : ∀ i, ∀ x ∈ bucketAt st.buckets i, st.findBucket K x = i
  count : st.count = st.elements.length

@[simp] lemma elements_init (n : ℕ) : (init n : Subtable α).elements = [] := by
  simp [elements, init]

@[simp] lemma numBuckets_init (n : ℕ) : (init n : Subtable α).numBuckets = n := by
  simp [numBuckets, init]

@[simp] lemma numBuckets_push (st : Subtable α) (x : α) : (st.push K x).numBuckets = st.numBuckets := by
  simp [numBuckets, push]

@[simp] lemma numBuckets_unlink (st : Subtable α) (i k : ℕ) : (st.unlink i k).numBuckets = st.numBuckets := by
  simp [numBuckets, unlink]

lemma placed_init {n : ℕ} (hn : 0 < n) : Placed K (init n) := by
  refine ⟨by simpa using hn, ?_, by rw [elements_init]; rfl⟩
  intro i x hx
  have hmem : x ∈ (init n : Subtable α).elements := by
    rcases lt_or_ge i n with hlt | hge
    · exact mem_flatten_iff.mpr ⟨i, by simpa [init] using hlt, hx⟩
    · simp [bucketAt, init, hge] at hx
  simp at hmem

lemma Placed.findBucket_lt (h : Placed K st) (x : α) : st.findBucket K x < st.buckets.length := mod_lt _ h.pos

/-- PUSH: a new head is one more element, in its bucket. -/
lemma Placed.push (h : Placed K st) (x : α) :
    Placed K (st.push K x) ∧ (st.push K x).elements.Perm (x :: st.elements) := by
  have hperm := pushBucket_perm (h.findBucket_lt x) x
  refine ⟨⟨by simpa using h.pos, ?_, ?_⟩, hperm⟩
  · intro i y hy
    have hbucket : findBucket K (st.push K x) y = findBucket K st y := by
      simp only [findBucket, numBuckets_push]
    rw [hbucket]
    simp only [Subtable.push, pushBucket, bucketAt_set (h.findBucket_lt x)] at hy
    split at hy
    case isTrue hi =>
      rcases mem_cons.mp hy with rfl | hold
      · exact hi.symm
      · exact hi ▸ h.placed _ y hold
    case isFalse => exact h.placed i y hy
  · have hlen : (st.push K x).elements.length = st.elements.length + 1 := hperm.length_eq
    rw [hlen, Subtable.push, h.count]
    rfl

lemma lt_of_datumAt (h : st.datumAt i k = some x) : i < st.buckets.length := by
  by_contra hge
  simp [datumAt, bucketAt, not_lt.mp hge] at h

lemma mem_of_datumAt (h : st.datumAt i k = some x) : x ∈ st.elements :=
  mem_flatten_iff.mpr ⟨i, lt_of_datumAt h, mem_of_getElem? h⟩

/-- UNLINK: the element that is taken out is one fewer. -/
lemma Placed.unlink (h : Placed K st) (hx : st.datumAt i k = some x) :
    Placed K (st.unlink i k) ∧ st.elements.Perm (x :: (st.unlink i k).elements) := by
  have hi := lt_of_datumAt hx
  have hperm := eraseBucket_perm hi hx
  refine ⟨⟨by simpa using h.pos, ?_, ?_⟩, hperm⟩
  · intro j y hy
    have hbucket : findBucket K (st.unlink i k) y = findBucket K st y := by
      simp only [findBucket, numBuckets_unlink]
    rw [hbucket]
    simp only [Subtable.unlink, eraseBucket, bucketAt_set hi] at hy
    split at hy
    case isTrue hj =>
      subst hj
      exact h.placed j y (mem_of_mem_eraseIdx hy)
    case isFalse => exact h.placed j y hy
  · have hlen : st.elements.length = (st.unlink i k).elements.length + 1 := hperm.length_eq
    have hcount : (st.unlink i k).count = st.count - 1 := rfl
    rw [hcount, h.count, hlen]
    push_cast
    omega

/-- HIT: the link that is found precedes an element with an equal key. -/
lemma findPrecedingLink_some (h : st.findPrecedingLink K key = some (i, k)) :
    ∃ x, st.datumAt i k = some x ∧ K.cmpFunc key x = 0 := by
  obtain ⟨k', hk, hpair⟩ := Option.map_eq_some_iff.mp h
  obtain ⟨rfl, rfl⟩ := Prod.mk.inj hpair
  obtain ⟨hlt, hcmp, -⟩ := List.findIdx?_eq_some_iff_getElem.mp hk
  exact ⟨_, List.getElem?_eq_getElem hlt, by simpa using hcmp⟩

/-- MISS: no element has an equal key, since it would be in the bucket that was searched. -/
lemma Placed.findPrecedingLink_none (h : Placed K st) (hnone : st.findPrecedingLink K key = none)
    : ∀ x ∈ st.elements, K.cmpFunc key x ≠ 0 := by
  intro x hx hsame
  obtain ⟨i, -, hmem⟩ := mem_flatten_iff.mp hx
  have hi : findBucket K st key = i := by
    rw [← h.placed i x hmem, findBucket, findBucket, K.hash_eq hsame]
  have hmiss := List.findIdx?_eq_none_iff.mp (Option.map_eq_none_iff.mp hnone)
  rw [hi] at hmiss
  have hfalse := hmiss x hmem
  rw [hsame] at hfalse
  cases hfalse

lemma free_of_empty (h : st.elements = []) : st.free = .ok () := by
  have hloop : ∀ bs : List (List α), bs.flatten = [] → freeLoop bs = .ok () := by
    intro bs
    induction bs with
    | nil => intro _; rfl
    | cons b bs ih =>
      intro hnil
      obtain ⟨rfl, hrest⟩ := append_eq_nil_iff.mp (flatten_cons ▸ hnil)
      simp [freeLoop, liteAssert, ih hrest]
  exact hloop st.buckets h

end Subtable

namespace HashTable

variable {ht : HashTable α}
variable {x : α} {ht' : HashTable α}

def elements (ht : HashTable α) : List α := ht.newTable.elements ++ ht.oldTable.elements

/-- The invariant of a table. -/
structure Stored (K : KeyFuncs α) (ht : HashTable α) : Prop where
  old : ht.oldTable.Placed K
  new : ht.newTable.Placed K
  drained : ∀ i < ht.nextOldBucket, bucketAt ht.oldTable.buckets i = []
  distinct : ht.elements.Pairwise fun a b => K.cmpFunc a b ≠ 0
  count : ht.count = ht.elements.length
  potential : ht.oldTable.elements.length + ht.elements.length < 4 * ht.newTable.numBuckets
  idle : ht.visiting = 0

lemma stored_init : Stored K (init : HashTable α) := by
  refine ⟨placed_init one_pos, placed_init two_pos, ?_, ?_, ?_, ?_, rfl⟩
  · intro i hi
    have hzero : i = 0 := lt_one_iff.mp hi
    subst hzero
    rfl
  · simp [elements, init]
  · simp [elements, init]
  · simp [elements, init]

lemma distinct_perm {l l' : List α} (h : l.Perm l') (hl : l.Pairwise fun a b => K.cmpFunc a b ≠ 0)
    : l'.Pairwise fun a b => K.cmpFunc a b ≠ 0 := by
  refine (h.pairwise_iff ?_).mp hl
  intro a b hab hba
  exact hab (K.symm hba)

lemma Stored.eq_of_same (h : Stored K ht) {y : α} (hx : x ∈ ht.elements) (hy : y ∈ ht.elements)
    (hsame : K.cmpFunc x y = 0) : x = y := by
  by_contra hne
  have hsymm : Std.Symm fun a b : α => K.cmpFunc a b ≠ 0 := ⟨fun a b hab hba => hab (K.symm hba)⟩
  exact h.distinct.forall hx hy hne hsame

/-! ### Shifting one element -/

lemma skipEmpty_spec (b : List (List α)) : ∀ (l : List (List α)) (n : ℕ), b.drop n = l →
    n ≤ skipEmpty l n ∧ (∀ j, n ≤ j → j < skipEmpty l n → bucketAt b j = []) ∧
      (bucketAt b (skipEmpty l n) = [] → b.length ≤ skipEmpty l n) := by
  intro l
  induction l with
  | nil =>
    intro n hdrop
    refine ⟨le_rfl, fun j hlo hhi => absurd hhi (not_lt.mpr hlo), fun _ => ?_⟩
    exact drop_eq_nil_iff.mp hdrop
  | cons c l ih =>
    intro n hdrop
    have hget : b[n]? = some c := by
      rw [← List.head?_drop, hdrop, List.head?_cons]
    have hbucket : bucketAt b n = c := by simp [bucketAt, hget]
    have hrest : b.drop (n + 1) = l := by rw [← drop_drop, hdrop]; rfl
    obtain ⟨hle, hempty, hlast⟩ := ih (n + 1) hrest
    rw [skipEmpty]
    split
    case isTrue hc =>
      refine ⟨by omega, ?_, hlast⟩
      intro j hlo hhi
      rcases eq_or_lt_of_le hlo with rfl | hlt
      · rw [hbucket, isEmpty_iff.mp hc]
      · exact hempty j hlt hhi
    case isFalse hc =>
      refine ⟨le_rfl, fun j hlo hhi => absurd hhi (not_lt.mpr hlo), ?_⟩
      intro hnil
      rw [hbucket] at hnil
      exact absurd (isEmpty_iff.mpr hnil) hc

/-- What a shift keeps of a table. -/
structure Shifted (K : KeyFuncs α) (ht ht' : HashTable α) : Prop where
  old : ht'.oldTable.Placed K
  new : ht'.newTable.Placed K
  drained : ∀ i < ht'.nextOldBucket, bucketAt ht'.oldTable.buckets i = []
  elements : ht'.elements.Perm ht.elements
  moved : ht'.oldTable.elements.length = ht.oldTable.elements.length - 1
  numBuckets : ht'.newTable.numBuckets = ht.newTable.numBuckets
  count : ht'.count = ht.count
  idle : ht'.visiting = ht.visiting

/-- SHIFT: one element moves over from the old sub-table, unless there is none. -/
lemma shiftOne_shifted (hold : ht.oldTable.Placed K) (hnew : ht.newTable.Placed K)
    (hdrained : ∀ i < ht.nextOldBucket, bucketAt ht.oldTable.buckets i = []) : Shifted K ht (ht.shiftOne K) := by
  obtain ⟨hle, hskip, hlast⟩ := skipEmpty_spec ht.oldTable.buckets _ ht.nextOldBucket rfl
  have hbefore : ∀ i < skipEmpty (ht.oldTable.buckets.drop ht.nextOldBucket) ht.nextOldBucket,
      bucketAt ht.oldTable.buckets i = [] := by
    intro i hi
    rcases lt_or_ge i ht.nextOldBucket with hlt | hge
    · exact hdrained i hlt
    · exact hskip i hge hi
  rw [shiftOne]
  generalize skipEmpty (ht.oldTable.buckets.drop ht.nextOldBucket) ht.nextOldBucket = n at *
  cases hvictim : ht.oldTable.datumAt n 0 with
  | none =>
    have hnil : bucketAt ht.oldTable.buckets n = [] := by simpa [datumAt] using hvictim
    have hempty : ht.oldTable.elements = [] := by
      refine eq_nil_iff_forall_not_mem.mpr ?_
      intro x hx
      obtain ⟨i, hi, hmem⟩ := mem_flatten_iff.mp hx
      rw [hbefore i (hi.trans_le (hlast hnil))] at hmem
      cases hmem
    exact ⟨hold, hnew, hbefore, .refl _, by simp [hempty], rfl, rfl, rfl⟩
  | some victim =>
    obtain ⟨hold', hout⟩ := hold.unlink hvictim
    obtain ⟨hnew', hin⟩ := hnew.push victim
    refine ⟨hold', hnew', ?_, ?_, ?_, by simp, rfl, rfl⟩
    · intro i hi
      have hne : i ≠ n := hi.ne
      simp only [unlink, eraseBucket]
      rw [bucketAt_set (lt_of_datumAt hvictim), if_neg hne]
      exact hbefore i hi
    · refine (hin.append_right _).trans ?_
      exact perm_middle.symm.trans (hout.symm.append_left _)
    · have hlen := hout.length_eq
      simp only [length_cons] at hlen
      simp only [hlen, Nat.add_sub_cancel]

lemma Shifted.stored (h : Shifted K ht ht') (hdistinct : ht.elements.Pairwise fun a b => K.cmpFunc a b ≠ 0)
    (hcount : ht.count = ht.elements.length)
    (hpotential : ht.oldTable.elements.length - 1 + ht.elements.length < 4 * ht.newTable.numBuckets)
    (hidle : ht.visiting = 0) : Stored K ht' := by
  refine ⟨h.old, h.new, h.drained, distinct_perm h.elements.symm hdistinct, ?_, ?_, ?_⟩
  · rw [h.count, hcount, h.elements.length_eq]
  · rw [h.moved, h.numBuckets, h.elements.length_eq]
    exact hpotential
  · rw [h.idle, hidle]

section

variable (h : Stored K ht)
include h

lemma Stored.shiftOne : Stored K (ht.shiftOne K) ∧ (ht.shiftOne K).elements.Perm ht.elements := by
  have hshift := shiftOne_shifted h.old h.new h.drained
  have hpot := h.potential
  exact ⟨hshift.stored h.distinct h.count (by omega) h.idle, hshift.elements⟩

/-! ### The calls -/

/-- INVERSION of the search in both sub-tables. -/
lemma Stored.findPrecedingLink_cases (key : α) :
    (ht.findPrecedingLink K key = none ∧ ∀ x ∈ ht.elements, K.cmpFunc key x ≠ 0) ∨
    ∃ x, K.cmpFunc key x = 0 ∧ ((∃ i k, ht.findPrecedingLink K key = some (.new, i, k) ∧
      ht.newTable.datumAt i k = some x) ∨
      ∃ i k, ht.findPrecedingLink K key = some (.old, i, k) ∧ ht.oldTable.datumAt i k = some x) := by
  rw [findPrecedingLink]
  cases hnew : ht.newTable.findPrecedingLink K key with
  | some link =>
    obtain ⟨x, hx, hsame⟩ := findPrecedingLink_some hnew
    exact .inr ⟨x, hsame, .inl ⟨link.1, link.2, rfl, hx⟩⟩
  | none =>
    cases hold : ht.oldTable.findPrecedingLink K key with
    | some link =>
      obtain ⟨x, hx, hsame⟩ := findPrecedingLink_some hold
      exact .inr ⟨x, hsame, .inr ⟨link.1, link.2, rfl, hx⟩⟩
    | none =>
      refine .inl ⟨rfl, ?_⟩
      intro x hx
      rcases mem_append.mp hx with hin | hin
      · exact h.new.findPrecedingLink_none hnew x hin
      · exact h.old.findPrecedingLink_none hold x hin

/-- INVERSION of `hash_table_lookup`: a miss changes nothing, a hit shifts. -/
lemma Stored.lookup_cases (key : α) :
    (ht.lookup K key = (ht, none) ∧ ∀ x ∈ ht.elements, K.cmpFunc key x ≠ 0) ∨
    ∃ x ∈ ht.elements, K.cmpFunc key x = 0 ∧ ht.lookup K key = (ht.shiftOne K, some x) := by
  obtain ⟨hnone, hmiss⟩ | ⟨x, hsame, ⟨i, k, hfind, hx⟩ | ⟨i, k, hfind, hx⟩⟩ := h.findPrecedingLink_cases key
  · exact .inl ⟨by rw [lookup, hnone], hmiss⟩
  · refine .inr ⟨x, mem_append_left _ (mem_of_datumAt hx), hsame, ?_⟩
    simp only [lookup, hfind, hx]
  · refine .inr ⟨x, mem_append_right _ (mem_of_datumAt hx), hsame, ?_⟩
    simp only [lookup, hfind, hx]

lemma loadFactor_pushNew (x : α) : loadFactorLimit < (ht.pushNew K x).loadFactor ↔
    4 * ht.newTable.numBuckets ≤ ht.elements.length + 1 := by
  have hpos := h.new.pos
  have hcast : (ht.pushNew K x).loadFactor = ((ht.elements.length + 1) / ht.newTable.numBuckets : ℕ) := by
    rw [loadFactor, pushNew, h.count, numBuckets_push]
    norm_cast
  rw [hcast, loadFactorLimit, show (3 : ℤ) = ((3 : ℕ) : ℤ) from rfl, Int.ofNat_lt,
    ← succ_le_iff, le_div_iff_mul_le hpos]

/-- DRAINED: when an insertion makes the table grow, the old sub-table is empty. -/
lemma Stored.drained_at_growth (hgrow : loadFactorLimit < (ht.pushNew K x).loadFactor) :
    ht.oldTable.elements = [] := by
  have hfull := (loadFactor_pushNew h x).mp hgrow
  have hpot := h.potential
  exact eq_nil_of_length_eq_zero (by omega)

/-- An insertion of an absent key stores it. -/
lemma Stored.insertInner_absent (assertAbsent : Bool) (hmiss : ∀ y ∈ ht.elements, K.cmpFunc x y ≠ 0)
    (hlookup : ht.lookup K x = (ht, none)) : ∃ ht', ht.insertInner K x assertAbsent = .ok ht' ∧ Stored K ht' ∧
      ht'.elements.Perm (x :: ht.elements) := by
  obtain ⟨hnew, hperm⟩ := h.new.push x
  have helements : (ht.pushNew K x).elements.Perm (x :: ht.elements) := hperm.append_right _
  have hdistinct := distinct_perm helements.symm (pairwise_cons.mpr ⟨hmiss, h.distinct⟩)
  have hcount : (ht.pushNew K x).count = (ht.pushNew K x).elements.length := by
    rw [helements.length_eq, pushNew, h.count]
    rfl
  have hlen := helements.length_eq
  have hpot := h.potential
  simp only [length_cons] at hlen
  rw [insertInner, liteAssert_pos h.idle, ok_bind, hlookup]
  by_cases hgrow : loadFactorLimit < (ht.pushNew K x).loadFactor
  · have hdrained := h.drained_at_growth hgrow
    have hsame : (ht.pushNew K x).oldTable = ht.oldTable := rfl
    simp only [if_pos hgrow, grow, hsame, free_of_empty hdrained, ok_bind, pure_eq_ok]
    have hbuckets : (ht.pushNew K x).newTable.numBuckets = ht.newTable.numBuckets := numBuckets_push _ _
    have hfull := (loadFactor_pushNew h x).mp hgrow
    have hpos := h.new.pos
    let grown : HashTable α := { ht.pushNew K x with
      oldTable := (ht.pushNew K x).newTable
      newTable := .init ((ht.pushNew K x).newTable.numBuckets * 2)
      nextOldBucket := 0 }
    -- everything the table holds is in the sub-table that becomes the old one
    have hall : grown.elements = (ht.pushNew K x).elements := by
      simp [grown, elements, hsame, hdrained]
    have hold : grown.oldTable.elements = (ht.pushNew K x).elements := by
      simp [grown, elements, hsame, hdrained]
    have hnum : grown.newTable.numBuckets = ht.newTable.numBuckets * 2 := by
      simp [grown, hbuckets]
    have hshift : Shifted K grown (grown.shiftOne K) :=
      shiftOne_shifted hnew (placed_init (by omega)) (by intro i hi; cases hi)
    refine ⟨_, rfl, hshift.stored (hall ▸ hdistinct) (hall ▸ hcount) ?_ h.idle, ?_⟩
    · rw [hdrained, length_nil, zero_add] at hpot
      rw [hold, hall, hnum, hlen]
      omega
    · exact hshift.elements.trans (hall ▸ helements)
  · have hroom := mt (loadFactor_pushNew h x).mpr hgrow
    simp only [if_neg hgrow, pure_eq_ok, ok_bind]
    have hshift := @shiftOne_shifted α K (ht.pushNew K x) h.old hnew h.drained
    refine ⟨_, rfl, hshift.stored hdistinct hcount ?_ h.idle, hshift.elements.trans helements⟩
    have hbuckets : (ht.pushNew K x).newTable.numBuckets = ht.newTable.numBuckets := numBuckets_push _ _
    have hsame : (ht.pushNew K x).oldTable = ht.oldTable := rfl
    rw [hbuckets, hsame, hlen]
    omega

/-- A removal of a present key takes out the element with that key. -/
lemma Stored.remove_cases (key : α) :
    (ht.remove K key = .error .liteAssert ∧ ∀ x ∈ ht.elements, K.cmpFunc key x ≠ 0) ∨
    ∃ x ht', K.cmpFunc key x = 0 ∧ ht.remove K key = .ok ht' ∧ Stored K ht' ∧ ht.elements.Perm (x :: ht'.elements) := by
  have hsub : ∀ {ht' : HashTable α} {x : α}, ht.elements.Perm (x :: ht'.elements) →
      ht'.elements.Pairwise (fun a b => K.cmpFunc a b ≠ 0) ∧ ht.elements.length = ht'.elements.length + 1 := by
    intro ht' x hperm
    exact ⟨(pairwise_cons.mp (distinct_perm hperm h.distinct)).2, hperm.length_eq⟩
  have hpot := h.potential
  obtain ⟨hnone, hmiss⟩ | ⟨x, hsame, ⟨i, k, hfind, hx⟩ | ⟨i, k, hfind, hx⟩⟩ := h.findPrecedingLink_cases key
  · exact .inl ⟨by simp only [remove, liteAssert_pos h.idle, ok_bind, hnone], hmiss⟩
  · obtain ⟨hnew, hout⟩ := h.new.unlink hx
    let rest : HashTable α := { ht with newTable := ht.newTable.unlink i k, count := ht.count - 1 }
    have hperm : ht.elements.Perm (x :: rest.elements) := hout.append_right _
    obtain ⟨hdistinct, hlen⟩ := hsub hperm
    refine .inr ⟨x, rest, hsame, ?_, ⟨h.old, hnew, h.drained, hdistinct, ?_, ?_, h.idle⟩, hperm⟩
    · simp only [remove, liteAssert_pos h.idle, ok_bind, hfind, pure_eq_ok, rest]
    · have hcount : rest.count = ht.count - 1 := rfl
      rw [hcount, h.count, hlen]
      push_cast
      omega
    · have hnum : rest.newTable.numBuckets = ht.newTable.numBuckets := numBuckets_unlink _ _ _
      have hold : rest.oldTable = ht.oldTable := rfl
      rw [hnum, hold]
      omega
  · obtain ⟨hold, hout⟩ := h.old.unlink hx
    let rest : HashTable α := { ht with oldTable := ht.oldTable.unlink i k, count := ht.count - 1 }
    have hperm : ht.elements.Perm (x :: rest.elements) := (hout.append_left _).trans perm_middle
    obtain ⟨hdistinct, hlen⟩ := hsub hperm
    refine .inr ⟨x, rest, hsame, ?_, ⟨hold, h.new, ?_, hdistinct, ?_, ?_, h.idle⟩, hperm⟩
    · simp only [remove, liteAssert_pos h.idle, ok_bind, hfind, pure_eq_ok, rest]
    · intro j hj
      have hempty := h.drained j hj
      simp only [rest, unlink, eraseBucket]
      rw [bucketAt_set (lt_of_datumAt hx)]
      split
      case isTrue hji => rw [← hji, hempty, eraseIdx_nil]
      case isFalse => exact hempty
    · have hcount : rest.count = ht.count - 1 := rfl
      rw [hcount, h.count, hlen]
      push_cast
      omega
    · have hnew : rest.newTable = ht.newTable := rfl
      have hless : ht.oldTable.elements.length = rest.oldTable.elements.length + 1 := hout.length_eq
      rw [hnew]
      omega

/-- SPEC of `hash_table_lookup`: the element with the key, out of the same elements. -/
lemma Stored.lookup_spec (key : α) : ∃ ht' r, ht.lookup K key = (ht', r) ∧ Stored K ht' ∧
    ht'.elements.Perm ht.elements ∧ (r = none → ∀ x ∈ ht.elements, K.cmpFunc key x ≠ 0) ∧
    ∀ x, r = some x → x ∈ ht.elements ∧ K.cmpFunc key x = 0 := by
  obtain ⟨hlookup, hmiss⟩ | ⟨x, hx, hsame, hlookup⟩ := h.lookup_cases key
  · exact ⟨ht, none, hlookup, h, .refl _, fun _ => hmiss, nofun⟩
  · obtain ⟨hst, hperm⟩ := h.shiftOne
    refine ⟨_, some x, hlookup, hst, hperm, nofun, fun y hy => ?_⟩
    cases hy
    exact ⟨hx, hsame⟩

/-- INVERSION of `hash_table_insert`: the key was absent. -/
lemma Stored.insert_inv (hrun : ht.insert K x = .ok ht') :
    (∀ y ∈ ht.elements, K.cmpFunc x y ≠ 0) ∧ Stored K ht' ∧ ht'.elements.Perm (x :: ht.elements) := by
  obtain ⟨hlookup, hmiss⟩ | ⟨y, hy, hsame, hlookup⟩ := h.lookup_cases x
  · obtain ⟨ht1, hok, hst, hperm⟩ := h.insertInner_absent true hmiss hlookup
    cases hok.symm.trans hrun
    exact ⟨hmiss, hst, hperm⟩
  · rw [insert, insertInner, liteAssert_pos h.idle, ok_bind, hlookup] at hrun
    cases hrun

/-- INVERSION of `hash_table_remove`: the key was present. -/
lemma Stored.remove_inv {key : α} (hrun : ht.remove K key = .ok ht') :
    ∃ x, K.cmpFunc key x = 0 ∧ Stored K ht' ∧ ht.elements.Perm (x :: ht'.elements) := by
  obtain ⟨herr, -⟩ | ⟨x, ht1, hsame, hok, hst, hperm⟩ := h.remove_cases key
  · cases herr.symm.trans hrun
  · cases hok.symm.trans hrun
    exact ⟨x, hsame, hst, hperm⟩

end

/-! ### The finite set -/

noncomputable section

open Classical in

variable {S : Finset α}

/-- The element of a set with a given key. -/
def specFind (K : KeyFuncs α) (S : Finset α) (key : α) : Option α :=
  if h : ∃ x ∈ S, K.cmpFunc key x = 0 then some h.choose else none

open Classical in
/-- What a call means for the set of elements: insertion of a present key and removal of an absent one
    are against the table's contract. -/
def specCall (K : KeyFuncs α) (s : Finset α × List (Option α)) : Call α →
    Checked (Finset α × List (Option α))
  | .insert x => do
    liteAssert (specFind K s.1 x = none)
    pure (Insert.insert x s.1, s.2)
  | .union x => pure (if specFind K s.1 x = none then Insert.insert x s.1 else s.1, s.2)
  | .lookup key => pure (s.1, s.2 ++ [specFind K s.1 key])
  | .remove key => do
    liteAssert (specFind K s.1 key ≠ none)
    pure (s.1.filter fun x => K.cmpFunc key x ≠ 0, s.2)

/-- The table holds exactly the set, each element once, and counts it. -/
structure Holds (ht : HashTable α) (S : Finset α) : Prop where
  mem : ∀ x, x ∈ ht.elements ↔ x ∈ S
  nodup : ht.elements.Nodup
  count : ht.count = S.card

lemma Stored.holds (h : Stored K ht) (hmem : ∀ x, x ∈ ht.elements ↔ x ∈ S) : Holds ht S := by
  classical
  have hnodup : ht.elements.Nodup := by
    refine h.distinct.imp ?_
    rintro a b hab rfl
    exact hab (K.refl a)
  refine ⟨hmem, hnodup, ?_⟩
  have hS : ht.elements.toFinset = S := by
    ext x
    rw [mem_toFinset, hmem]
  rw [h.count, ← hS, toFinset_card_of_nodup hnodup]

lemma specFind_none {key : α} (h : ∀ x ∈ S, K.cmpFunc key x ≠ 0) : specFind K S key = none := by
  refine dif_neg ?_
  rintro ⟨x, hx, hsame⟩
  exact h x hx hsame

lemma Stored.specFind_some (h : Stored K ht) (hmem : ∀ x, x ∈ ht.elements ↔ x ∈ S) {key x : α} (hx : x ∈ ht.elements)
    (hsame : K.cmpFunc key x = 0) : specFind K S key = some x := by
  have hex : ∃ y ∈ S, K.cmpFunc key y = 0 := ⟨x, (hmem x).mp hx, hsame⟩
  obtain ⟨hy, hysame⟩ := hex.choose_spec
  rw [specFind, dif_pos hex, h.eq_of_same ((hmem _).mpr hy) hx (K.trans (K.symm hysame) hsame)]

/-- The relation that the calls keep. -/
def Refines (K : KeyFuncs α) (s : HashTable α × List (Option α)) (t : Finset α × List (Option α)) : Prop :=
  Stored K s.1 ∧ (∀ x, x ∈ s.1.elements ↔ x ∈ t.1) ∧ s.2 = t.2

/-- STEP: each call does to the table what it means for the set. -/
lemma call_refines (s : HashTable α × List (Option α)) (t : Finset α × List (Option α)) (c : Call α) (h : Refines K s t)
    : Related (Refines K) (call K s c) (specCall K t c) := by
  classical
  obtain ⟨ht, out⟩ := s
  obtain ⟨S, out'⟩ := t
  obtain ⟨hst, hmem, hout⟩ := h
  dsimp only at hst hmem hout
  subst hout
  -- what the table finds for a key is what the set has for it
  have hfound : ∀ key, (ht.lookup K key = (ht, none) ∧ (∀ x ∈ ht.elements, K.cmpFunc key x ≠ 0) ∧
      specFind K S key = none) ∨ ∃ x ∈ ht.elements, K.cmpFunc key x = 0 ∧
        ht.lookup K key = (ht.shiftOne K, some x) ∧ specFind K S key = some x := by
    intro key
    obtain ⟨hlookup, hmiss⟩ | ⟨x, hx, hsame, hlookup⟩ := hst.lookup_cases key
    · exact .inl ⟨hlookup, hmiss, specFind_none fun x hx => hmiss x ((hmem x).mpr hx)⟩
    · exact .inr ⟨x, hx, hsame, hlookup, hst.specFind_some hmem hx hsame⟩
  have hshift : Refines K (ht.shiftOne K, out) (S, out) := by
    refine ⟨hst.shiftOne.1, ?_, rfl⟩
    intro x
    rw [hst.shiftOne.2.mem_iff, hmem]
  have hinsert : ∀ {x : α} {ht' : HashTable α}, ht'.elements.Perm (x :: ht.elements) →
      ∀ y, y ∈ ht'.elements ↔ y ∈ Insert.insert x S := by
    intro x ht' hperm y
    rw [hperm.mem_iff, mem_cons, Finset.mem_insert, hmem]
  cases c with
  | insert x =>
    obtain ⟨hlookup, hmiss, hnone⟩ | ⟨y, hy, hsame, hlookup, hsome⟩ := hfound x
    · obtain ⟨ht', hok, hst', hperm⟩ := hst.insertInner_absent true hmiss hlookup
      simp only [call, insert, hok, specCall, hnone, liteAssert, if_true, ok_bind, pure_eq_ok]
      exact ⟨hst', hinsert hperm, rfl⟩
    · simp [call, insert, insertInner, hlookup, specCall, hsome, liteAssert, hst.idle, Related]
  | union x =>
    obtain ⟨hlookup, hmiss, hnone⟩ | ⟨y, hy, hsame, hlookup, hsome⟩ := hfound x
    · obtain ⟨ht', hok, hst', hperm⟩ := hst.insertInner_absent false hmiss hlookup
      simp only [call, union, hok, specCall, hnone, if_true, ok_bind, pure_eq_ok]
      exact ⟨hst', hinsert hperm, rfl⟩
    · simp only [call, union, insertInner, hlookup, specCall, hsome, liteAssert, hst.idle,
        if_true, ok_bind, pure_eq_ok, reduceCtorEq, if_false]
      exact hshift
  | lookup key =>
    obtain ⟨hlookup, hmiss, hnone⟩ | ⟨y, hy, hsame, hlookup, hsome⟩ := hfound key
    · simp only [call, specCall, hlookup, hnone]
      exact ⟨hst, hmem, rfl⟩
    · simp only [call, specCall, hlookup, hsome]
      exact ⟨hshift.1, hshift.2.1, rfl⟩
  | remove key =>
    obtain ⟨herr, hmiss⟩ | ⟨x, ht', hsame, hok, hst', hperm⟩ := hst.remove_cases key
    · have hnone := specFind_none fun x hx => hmiss x ((hmem x).mpr hx)
      simp [call, specCall, herr, hnone, liteAssert, Related]
    · have hsome := hst.specFind_some hmem (hperm.mem_iff.mpr mem_cons_self) hsame
      simp only [call, specCall, hok, hsome, liteAssert, ne_eq, reduceCtorEq, not_false_eq_true, if_true,
        ok_bind, pure_eq_ok]
      refine ⟨hst', ?_, rfl⟩
      intro y
      rw [Finset.mem_filter, ← hmem, hperm.mem_iff, mem_cons]
      -- the elements that stay are those whose key differs from the removed one
      have hdistinct := pairwise_cons.mp (distinct_perm hperm hst.distinct)
      constructor
      · intro hy
        exact ⟨.inr hy, fun hkey => hdistinct.1 y hy (K.trans (K.symm hsame) hkey)⟩
      · rintro ⟨rfl | hy, hkey⟩
        · exact absurd hsame hkey
        · exact hy

/-- REFINEMENT: every sequence of calls does to the table what it does to a finite set, with the same results and the
    same violations of the contract, and the count is the number of elements; and in every state that is reached, an
    insertion that makes the table grow finds the old sub-table empty, so that it can be freed. -/
theorem hashTable_refines_finset (K : KeyFuncs α) (calls : List (Call α)) :
    Related (fun (s : HashTable α × List (Option α)) t => Holds s.1 t.1 ∧ s.2 = t.2)
      (run (call K) (init, []) calls) (run (specCall K) (∅, []) calls) ∧
    ∀ ht out, run (call K) (init, []) calls = .ok (ht, out) → ∀ x, loadFactorLimit < (ht.pushNew K x).loadFactor →
        ht.oldTable.elements = [] ∧ ht.oldTable.free = .ok () := by
  have hinit : Refines K (init, []) (∅, []) := by
    refine ⟨stored_init, ?_, rfl⟩
    intro x
    simp [elements, init]
  have hrun := run_related call_refines calls _ _ hinit
  constructor
  · exact hrun.mono fun s t hst => ⟨hst.1.holds hst.2.1, hst.2.2⟩
  · intro ht out hr x hgrow
    rw [hr] at hrun
    obtain ⟨t, -, hst, -⟩ := hrun.ok
    have hempty := hst.drained_at_growth hgrow
    exact ⟨hempty, Subtable.free_of_empty hempty⟩

end

/-- Numbers that are their own keys. -/
def natKeys : KeyFuncs ℕ where
  hashFunc := UInt32.ofNat
  cmpFunc a b := a - b
  refl a := sub_self _
  symm h := by omega
  trans h h' := by omega
  hash_eq h := by rw [Int.natCast_inj.mp (sub_eq_zero.mp h)]

def sevenStored : HashTable ℕ := ⟨⟨[[]], 0⟩, 1, ⟨[[6, 4, 2, 0], [5, 3, 1]], 7⟩, 7, 0⟩

/-- With seven elements in two buckets the next insertion makes the table grow. -/
theorem hashTable_refines_finset_growth :
    run (call natKeys) (init, []) ((List.range 7).map .insert) = .ok (sevenStored, []) ∧
      loadFactorLimit < (sevenStored.pushNew natKeys 7).loadFactor ∧ sevenStored.oldTable.free = .ok () := by
  have hrun : run (call natKeys) (init, []) ((List.range 7).map .insert) = .ok (sevenStored, []) := rfl
  have hgrow : loadFactorLimit < (sevenStored.pushNew natKeys 7).loadFactor := by decide
  exact ⟨hrun, hgrow, ((hashTable_refines_finset natKeys _).2 _ _ hrun 7 hgrow).2⟩

end HashTable

end Embassies.Utils
