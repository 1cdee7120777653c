import Embassies.Utils.AVLSet

/-! Runs of the AVL tree: any sequence of insertions and removals.

    The tree is compared with the set of elements that were inserted and not removed since. Insertions are of keys that
    the set does not have, and `remove(element)` is called for a key it has, as the tree asserts. -/

namespace Embassies.Utils.AVLTree

variable {E K : Type} [LinearOrder K]

/-- A call that changes the tree. -/
inductive Call (E K : Type) where
  | insert (element : E)
  | remove (element : E)
  | removeKey (key : K)

def call (c : AVLKeys E K) (t : AVLTree E) : Call E K → Checked (AVLTree E)
  | .insert element => t.insert c element
  | .remove element => t.remove c element
  | .removeKey key => do
    let (t, _) ← t.removeKey c key
    pure t

def Call.effect (getKey : E → K) (s : Set E) : Call E K → Set E
  | .insert element => Insert.insert element s
  | .remove element => { x ∈ s | getKey x ≠ getKey element }
  | .removeKey key => { x ∈ s | getKey x ≠ key }

def effects (getKey : E → K) : Set E → List (Call E K) → Set E
  | s, [] => s
  | s, a :: as => effects getKey (a.effect getKey s) as

/-- Every insertion is of a new key, and every removal of an element finds its key. -/
def Admissible (getKey : E → K) : Set E → List (Call E K) → Prop
  | _, [] => True
  | s, a :: as =>
    (match a with
      | .insert element => ∀ x ∈ s, getKey x ≠ getKey element
      | .remove element => ∃ x ∈ s, getKey x = getKey element
      | .removeKey _ => True) ∧ Admissible getKey (a.effect getKey s) as

/-- The tree holds exactly that set, sorted by the order of the keys, balanced and linked. -/
def Represents (getKey : E → K) (t : AVLTree E) (s : Set E) : Prop :=
  Stores (.ofLinear getKey) id Set.univ t s

variable {getKey : E → K} {t : AVLTree E} {s : Set E}

lemma Represents.diff_eq (h : Represents getKey t s) {x : E} (hx : x ∈ s) {key : K} (hkey : getKey x = key) :
    s \ {x} = { y ∈ s | getKey y ≠ key } := by
  ext y
  simp only [Set.mem_sdiff, Set.mem_singleton_iff, Set.mem_ofPred_eq]
  refine and_congr_right fun hy => not_congr ⟨?_, fun h' => Stores.inj h hy hx (h'.trans hkey.symm)⟩
  rintro rfl
  exact hkey

/-- STEP: a call that is admissible succeeds and has its effect. -/
lemma call_represents (h : Represents getKey t s) (a : Call E K) (ha : Admissible getKey s [a]) :
    ∃ t', t.call (.ofLinear getKey) a = .ok t' ∧ Represents getKey t' (a.effect getKey s) := by
  have hc := AVLKeys.ofLinear_ordered getKey
  cases a with
  | insert element => exact Stores.insert h hc trivial ha.1
  | remove element =>
    obtain ⟨x, hx, hkey⟩ := ha.1
    obtain ⟨t', hrun, ht'⟩ := Stores.remove h hc (e := element) trivial hx hkey
    rw [h.diff_eq hx hkey] at ht'
    exact ⟨t', hrun, ht'⟩
  | removeKey key =>
    rcases Stores.removeKey h hc trivial with ⟨t', x, hrun, hx, hkey, ht'⟩ | ⟨hrun, hnone⟩
    · rw [h.diff_eq hx hkey] at ht'
      exact ⟨t', by simp [call, hrun], ht'⟩
    · have hsame : Call.effect getKey s (.removeKey key) = s := Set.sep_eq_self_iff_mem_true.mpr hnone
      exact ⟨t, by simp [call, hrun], by rwa [hsame]⟩

/-- RUN: so does every admissible sequence of calls. -/
lemma run_represents (calls : List (Call E K)) : ∀ {t : AVLTree E} {s : Set E},
    Represents getKey t s → Admissible getKey s calls →
      ∃ t', run (call (.ofLinear getKey)) t calls = .ok t' ∧
        Represents getKey t' (effects getKey s calls) := by
  induction calls with
  | nil =>
    intro t s h _
    exact ⟨t, rfl, h⟩
  | cons a as ih =>
    intro t s h ha
    obtain ⟨t1, hrun1, h1⟩ := call_represents h a ⟨ha.1, trivial⟩
    obtain ⟨t2, hrun2, h2⟩ := ih h1 ha.2
    exact ⟨t2, by simp [run, hrun1, hrun2], h2⟩

/-- What the searches of a tree that holds the set return for a key. -/
structure Searches (getKey : E → K) (t : AVLTree E) (s : Set E) (key : K) : Prop where
  findMin : ∃ r, t.findMin (.ofLinear getKey) = .ok r ∧
    Nearest (fun x => OrderDual.toDual (getKey x)) (· ∈ s) (fun _ => True) r
  findMax : ∃ r, t.findMax (.ofLinear getKey) = .ok r ∧ Nearest getKey (· ∈ s) (fun _ => True) r
  findFirstLessThan : ∃ r, t.findFirstLessThan (.ofLinear getKey) key = .ok r ∧
    Nearest getKey (· ∈ s) (fun x => getKey x < key) r
  findFirstLessThanOrEqualTo : ∃ r, t.findFirstLessThanOrEqualTo (.ofLinear getKey) key = .ok r ∧
    Nearest getKey (· ∈ s) (fun x => getKey x ≤ key) r
  findFirstGreaterThan : ∃ r, t.findFirstGreaterThan (.ofLinear getKey) key = .ok r ∧
    Nearest (fun x => OrderDual.toDual (getKey x)) (· ∈ s) (fun x => key < getKey x) r
  findFirstGreaterThanOrEqualTo : ∃ r, t.findFirstGreaterThanOrEqualTo (.ofLinear getKey) key = .ok r ∧
    Nearest (fun x => OrderDual.toDual (getKey x)) (· ∈ s) (fun x => key ≤ getKey x) r
  lookup : ∃ r, t.lookup (.ofLinear getKey) key = .ok r ∧ ∀ x, r = some x ↔ x ∈ s ∧ getKey x = key

lemma Represents.searches (h : Represents getKey t s) (key : K) : Searches getKey t s key :=
  have hc := AVLKeys.ofLinear_ordered getKey
  { findMin := Stores.findMin h hc
    findMax := Stores.findMax h hc
    findFirstLessThan := Stores.findFirstLessThan h hc trivial
    findFirstLessThanOrEqualTo := Stores.findFirstLessThanOrEqualTo h hc trivial
    findFirstGreaterThan := Stores.findFirstGreaterThan h hc trivial
    findFirstGreaterThanOrEqualTo := Stores.findFirstGreaterThanOrEqualTo h hc trivial
    lookup := Stores.lookup h hc trivial }

/-- CORRECT: after every admissible sequence of calls no assert has failed, the tree is laid out with
    consistent links, balanced and sorted, holds exactly what was inserted and not removed, and every
    search returns the right neighbour. -/
theorem avlTree_correct (getKey : E → K) (calls : List (Call E K)) (h : Admissible getKey ∅ calls) :
    ∃ t, run (call (.ofLinear getKey)) empty calls = .ok t ∧
      Represents getKey t (effects getKey ∅ calls) ∧
        ∀ key, Searches getKey t (effects getKey ∅ calls) key := by
  obtain ⟨t, hrun, hrep⟩ := run_represents calls Stores.empty h
  exact ⟨t, hrun, hrep, hrep.searches⟩

/-- Three keys in ascending order, which rotates, and the root removed again. -/
theorem avlTree_correct_rotation :
    Admissible (id : ℕ → ℕ) ∅ [.insert 1, .insert 2, .insert 3, .remove 2] ∧
    ∃ t, run (call (.ofLinear id)) empty [.insert 1, .insert 2, .insert 3, .remove 2] = .ok t ∧
      Represents id t (effects id ∅ [.insert 1, .insert 2, .insert 3, .remove 2]) ∧
        ∀ key, Searches (id : ℕ → ℕ) t (effects id ∅ [.insert 1, .insert 2, .insert 3, .remove 2]) key := by
  have h : Admissible (id : ℕ → ℕ) ∅ [.insert 1, .insert 2, .insert 3, .remove 2] := by
    simp [Admissible, Call.effect]
  exact ⟨h, avlTree_correct id _ h⟩

end Embassies.Utils.AVLTree
