import Mathlib.Data.List.Nodup

/-! Two lists side by side, where the second grows along the first: what a loop over an array has noted so far. -/

namespace Embassies

open List

variable {β γ : Type}

lemma mem_zip_concat {p : β × γ} {b : β} {c : γ} : ∀ {l : List β} {m : List γ},
    l[m.length]? = some b → p ∈ l.zip (m ++ [c]) → p ∈ l.zip m ∨ p = (b, c)
  | [], m, h, _ => by cases h
  | x :: l, [], h, hp => by
    cases h
    rw [nil_append, zip_cons_cons, zip_nil_right, mem_singleton] at hp
    exact .inr hp
  | x :: l, y :: m, h, hp => by
    rw [cons_append, zip_cons_cons, mem_cons] at hp
    rw [zip_cons_cons, mem_cons]
    rcases hp with rfl | hp
    · exact .inl (.inl rfl)
    · exact (mem_zip_concat (by simpa using h) hp).imp_left .inr

lemma mem_zip_map {f : β → γ} {b : β} : ∀ {l : List β}, b ∈ l → (b, f b) ∈ l.zip (l.map f)
  | x :: l, h => by
    rw [map_cons, zip_cons_cons, mem_cons]
    rcases mem_cons.mp h with rfl | h
    · exact .inl rfl
    · exact .inr (mem_zip_map h)

end Embassies
