import Mathlib.Data.List.Infix

/-! Lists joined with a separator.

    `List.splitOn` takes a joined list apart again if no part has the separator in it. So the joined form
    tells equality, and, at a separator, which list of parts ends with which. -/

namespace Embassies

open List

variable {α : Type} [DecidableEq α] {x : α}
variable {p q : List (List α)}

lemma length_splitOn (xs : List α) : (xs.splitOn x).length = xs.count x + 1 := by
  induction xs with
  | nil => rw [splitOn_nil, length_singleton, count_nil]
  | cons y ys ih =>
    rw [splitOn_cons_eq_if_modifyHead, count_cons]
    split
    · rw [length_cons, ih]
    · rw [length_modifyHead, ih]

lemma of_mem_splitOn (xs : List α) : ∀ l ∈ xs.splitOn x, ∀ y ∈ l, y ≠ x ∧ y ∈ xs := by
  induction xs with
  | nil => simp [splitOn_nil]
  | cons z zs ih =>
    intro l hl y hy
    rw [splitOn_cons_eq_if_modifyHead] at hl
    split at hl
    · rcases mem_cons.mp hl with rfl | hl
      · cases hy
      · exact (ih l hl y hy).imp_right (mem_cons_of_mem z)
    case isFalse hz =>
      cases hsplit : zs.splitOn x with
      | nil =>
        rw [hsplit] at hl
        cases hl
      | cons first rest =>
        rw [hsplit] at hl ih
        rcases mem_cons.mp hl with rfl | hl
        · rcases mem_cons.mp hy with rfl | hy
          · exact ⟨by simpa using hz, mem_cons_self⟩
          · exact (ih first mem_cons_self y hy).imp_right (mem_cons_of_mem z)
        · exact (ih l (mem_cons_of_mem _ hl) y hy).imp_right (mem_cons_of_mem z)

omit [DecidableEq α] in
lemma intercalate_append (hp : p ≠ []) (hq : q ≠ []) :
    [x].intercalate (p ++ q) = [x].intercalate p ++ x :: [x].intercalate q := by
  induction p with
  | nil => exact absurd rfl hp
  | cons l p ih =>
    obtain ⟨m, q, rfl⟩ := exists_cons_of_ne_nil hq
    cases p with
    | nil => simp [intercalate_cons_cons]
    | cons l' p =>
      rw [cons_append, cons_append, intercalate_cons_cons, intercalate_cons_cons, ← cons_append, ih nofun]
      simp

omit [DecidableEq α] in
/-- What is in a joined list is the separator or in a part. -/
lemma mem_intercalate {y : α} (h : y ∈ [x].intercalate p) : y = x ∨ ∃ l ∈ p, y ∈ l := by
  induction p with
  | nil => simp at h
  | cons l p ih =>
    cases p with
    | nil => exact .inr ⟨l, by simp, by simpa using h⟩
    | cons l' p =>
      rw [intercalate_cons_cons, mem_append, mem_append, mem_singleton] at h
      rcases h with (hl | rfl) | hp
      · exact .inr ⟨l, by simp, hl⟩
      · exact .inl rfl
      · rcases ih hp with rfl | ⟨m, hm, hy⟩
        · exact .inl rfl
        · exact .inr ⟨m, mem_cons_of_mem _ hm, hy⟩

lemma intercalate_inj (hp : p ≠ []) (hq : q ≠ []) (hp' : ∀ l ∈ p, x ∉ l) (hq' : ∀ l ∈ q, x ∉ l)
    (h : [x].intercalate p = [x].intercalate q) : p = q := by
  rw [← splitOn_intercalate x hp' hp, h, splitOn_intercalate x hq' hq]

/-- SUFFIX: the parts end with others exactly if the joined list does, at a separator. -/
lemma suffix_iff_intercalate (hp : p ≠ []) (hq : q ≠ []) (hp' : ∀ l ∈ p, x ∉ l) (hq' : ∀ l ∈ q, x ∉ l) :
    q <:+ p ↔ [x].intercalate p = [x].intercalate q ∨ ∃ s, [x].intercalate p = s ++ x :: [x].intercalate q := by
  constructor
  · rintro ⟨s, rfl⟩
    cases s with
    | nil => exact .inl rfl
    | cons l s => exact .inr ⟨_, intercalate_append nofun hq⟩
  · rintro (heq | ⟨s, heq⟩)
    · rw [intercalate_inj hp hq hp' hq' heq]
    · refine ⟨s.splitOn x, ?_⟩
      rw [← splitOn_intercalate x hp' hp, heq, splitOn_append_cons_self, splitOn_intercalate x hq' hq]

end Embassies
