import Embassies.Lib.Checked
import Embassies.Lib.Word
import Embassies.Lib.Zipper

/-! The AVL tree of `avl2.h`, `avl2mem.h` and `avl2logic.h`.

    Nodes live in a heap and refer to each other by address, up and down; following a null pointer or the address of a
    node that was freed stops the process. Where the source has one piece of code for each side, the side is a parameter
    here: `whichSide` is `AVLLeft` or `AVLRight`, which is what the source asserts of it. Loops and upward recursions
    carry a bound, the number of addresses handed out so far; no tree is deeper than that. -/

namespace Embassies.Utils

open Function

/-- `AVLBalance`. -/
inductive AVLBalance where | new | left | balanced | right
  deriving DecidableEq, Repr

/-- The balance of a node whose subtree on that side is one deeper. -/
def heavy : Side → AVLBalance
  | .left => .left
  | .right => .right

@[simp] lemma heavy_ne_balanced (side : Side) : heavy side ≠ .balanced := by cases side <;> decide

@[simp] lemma heavy_ne_new (side : Side) : heavy side ≠ .new := by cases side <;> decide

@[simp] lemma heavy_inj {s side : Side} : heavy s = heavy side ↔ s = side := by
  cases s <;> cases side <;> decide

/-- What the tree asks of its `elementClass` and `keyClass`. -/
structure AVLKeys (E K : Type) where
  getKey : E → K
  lt : K → K → Bool
  gt : K → K → Bool
  eq : K → K → Bool
  le : K → K → Bool
  ge : K → K → Bool

/-- `AVLElement`, a node. -/
structure AVLElement (E : Type) where
  balance : AVLBalance
  parent : Option ℕ
  left : Option ℕ
  right : Option ℕ
  element : Option E

namespace AVLElement

variable {E : Type}

/-- `getLeft()` or `getRight()`. -/
def child (n : AVLElement E) : Side → Option ℕ
  | .left => n.left
  | .right => n.right

/-- `setLeft(val)` or `setRight(val)`. -/
def withChild (n : AVLElement E) (side : Side) (val : Option ℕ) : AVLElement E :=
  match side with
  | .left => { n with left := val }
  | .right => { n with right := val }

/-- `setParent(parent)`. -/
def withParent (n : AVLElement E) (parent : Option ℕ) : AVLElement E := { n with parent := parent }

/-- `setBalance(balance)`. -/
def withBalance (n : AVLElement E) (balance : AVLBalance) : AVLElement E := { n with balance := balance }

/-- `getElement()`, which every caller dereferences. -/
def getElement (n : AVLElement E) : Checked E :=
  match n.element with
  | none => .error .nullDeref
  | some e => .ok e

end AVLElement

/-- `AVLTree`. `nodes` are the nodes that are allocated, and `allocated` the address `Allocate()` returns next. -/
structure AVLTree (E : Type) where
  tree : Option ℕ
  nodes : ℕ → Option (AVLElement E)
  allocated : ℕ
  insertions : ℕ
  deletions : ℕ
  singleRotations : ℕ
  doubleRotations : ℕ

namespace AVLTree

variable {E K : Type}

/-- `AVLTree(sf)`. -/
def empty : AVLTree E := ⟨none, fun _ => none, 0, 0, 0, 0, 0⟩

/-- Follow a pointer. -/
def get (t : AVLTree E) (p : ℕ) : Checked (AVLElement E) :=
  match t.nodes p with
  | none => .error .nullDeref
  | some n => .ok n

/-- The heap with a node at an address. -/
def put (t : AVLTree E) (p : ℕ) (n : AVLElement E) : AVLTree E :=
  { t with nodes := update t.nodes p (some n) }

/-- Change the node at an address. -/
def modify (t : AVLTree E) (p : ℕ) (f : AVLElement E → AVLElement E) : Checked (AVLTree E) := do
  let n ← t.get p
  pure (t.put p (f n))

/-- `setBalance(balance)`. -/
def setBalance (t : AVLTree E) (p : ℕ) (balance : AVLBalance) : Checked (AVLTree E) :=
  t.modify p fun n => n.withBalance balance

/-- `setParent(parent)`. -/
def setParent (t : AVLTree E) (p : ℕ) (parent : Option ℕ) : Checked (AVLTree E) :=
  t.modify p fun n => n.withParent parent

/-- `setLeft(val)` or `setRight(val)`. -/
def setChild (t : AVLTree E) (p : ℕ) (side : Side) (val : Option ℕ) : Checked (AVLTree E) :=
  t.modify p fun n => n.withChild side val

/-- `if (p) p->setParent(parent)`. -/
def reparent (t : AVLTree E) (p parent : Option ℕ) : Checked (AVLTree E) :=
  match p with
  | none => pure t
  | some a => t.setParent a parent

/-- `avl_assert(p)`. -/
def nonNull : Option ℕ → Checked ℕ
  | none => .error .liteAssert
  | some a => .ok a

/-- Which child of its parent a node is: the one on the side that is looked at first, or else asserted to
    be the other. -/
def sideOf (t : AVLTree E) (first : Side) (self parent : ℕ) : Checked Side := do
  let p ← t.get parent
  if p.child first = some self then pure first
  else do
    liteAssert (p.child first.other = some self)
    pure first.other

/-- Put another node, or none, at the place of `self` under its parent or at the root. -/
def promote (t : AVLTree E) (first : Side) (self : ℕ) (parent new : Option ℕ) :
    Checked (AVLTree E) :=
  match parent with
  | none => do
    liteAssert (t.tree = some self)
    pure { t with tree := new }
  | some p => do
    let side ← t.sideOf first self p
    t.setChild p side new

/-- The links that `singleRotate` changes: the child is promoted to our position, its light subtree goes to
    our heavy side, and we take the place of that subtree. -/
def liftChild (t : AVLTree E) (self child : ℕ) (parent : Option ℕ) (whichSide : Side) :
    Checked (AVLTree E) := do
  let t ← t.promote .left self parent (some child)
  let t ← t.setParent child parent
  let c ← t.get child
  let light := c.child whichSide.other
  let t ← t.setChild self whichSide light
  let t ← t.reparent light (some self)
  let t ← t.setChild child whichSide.other (some self)
  let t ← t.setParent self (some child)
  let t ← t.setBalance self .balanced
  t.setBalance child .balanced

/-- `singleRotate(self, tree, child, whichSide)`. -/
def singleRotate (t : AVLTree E) (self child : ℕ) (whichSide : Side) : Checked (AVLTree E) := do
  let n ← t.get self
  liteAssert (n.child whichSide = some child)
  liftChild { t with singleRotations := u32 (t.singleRotations + 1) } self child n.parent whichSide

/-- The balances `doubleRotate` gives to `self` and to its child, from the grandchild's. -/
def doubleBalances (whichSide : Side) (grandchild : AVLBalance) : Checked (AVLBalance × AVLBalance) :=
  if grandchild = heavy whichSide.other then pure (.balanced, heavy whichSide)
  else if grandchild = .balanced then pure (.balanced, .balanced)
  else if grandchild = heavy whichSide then pure (heavy whichSide.other, .balanced)
  else .error .liteAssert   -- Bogus balance value

/-- The links that `doubleRotate` changes: the grandchild is promoted to our position, between us and the
    child, and its subtrees `beta` and `gamma` are attached to us and to the child. -/
def liftGrandchild (t : AVLTree E) (self child grandchild : ℕ) (parent : Option ℕ) (whichSide : Side) :
    Checked (AVLTree E) := do
  let g ← t.get grandchild
  let beta := g.child whichSide.other
  let gamma := g.child whichSide
  let t ← t.promote .left self parent (some grandchild)
  let t ← t.setParent grandchild parent
  let t ← t.setChild grandchild whichSide (some child)
  let t ← t.setChild grandchild whichSide.other (some self)
  let t ← t.setParent self (some grandchild)
  let t ← t.setParent child (some grandchild)
  let t ← t.setChild self whichSide beta
  let t ← t.reparent beta (some self)
  let t ← t.setChild child whichSide.other gamma
  let t ← t.reparent gamma (some child)
  let (selfBalance, childBalance) ← doubleBalances whichSide g.balance
  let t ← t.setBalance self selfBalance
  let t ← t.setBalance child childBalance
  t.setBalance grandchild .balanced

/-- `doubleRotate(self, tree, child, grandchild, whichSide)`. -/
def doubleRotate (t : AVLTree E) (self child : ℕ) (grandchild : Option ℕ) (whichSide : Side) :
    Checked (AVLTree E) := do
  let grandchild ← nonNull grandchild
  let n ← t.get self
  let c ← t.get child
  let g ← t.get grandchild
  liteAssert (n.child whichSide = some child ∧ c.balance = heavy whichSide.other)
  liteAssert (c.parent = some self)
  liteAssert (g.parent = some child)
  liftGrandchild { t with doubleRotations := u32 (t.doubleRotations + 1) } self child grandchild n.parent
    whichSide

/-- The parent of a node, and the side of it the node is on. -/
def parentSide (t : AVLTree E) (self : ℕ) : Checked (Option (Side × ℕ)) := do
  let n ← t.get self
  match n.parent with
  | none => pure none
  | some parent => do
    let side ← t.sideOf .right self parent
    pure (some (side, parent))

/-- What `rightAdded` and `leftAdded` do at one node, which has just gotten one deeper on that side; the
    second component is whether its whole subtree has gotten deeper. -/
def addedStep (side : Side) (t : AVLTree E) (self : ℕ) : Checked (AVLTree E × Bool) := do
  let n ← t.get self
  liteAssert (n.balance ≠ .new)
  if n.balance = heavy side.other then do
    -- The depth of the subtree rooted here hasn't changed, we're done
    let t ← t.setBalance self .balanced
    pure (t, false)
  else if n.balance = .balanced then do
    let t ← t.setBalance self (heavy side)
    pure (t, true)
  else do
    liteAssert (n.balance = heavy side)
    -- We've just gone to double right (ie, out of balance).
    let child ← nonNull (n.child side)
    let c ← t.get child
    if c.balance = heavy side then do
      let t ← t.singleRotate self child side
      pure (t, false)
    else do
      liteAssert (c.balance = heavy side.other)
      let t ← t.doubleRotate self child (c.child side.other) side
      pure (t, false)

/-- `rightAdded(self, tree)` and `leftAdded(self, tree)`, which call each other up the tree. -/
def added : ℕ → Side → AVLTree E → ℕ → Checked (AVLTree E)
  | 0, _, _, _ => .error .outOfFuel
  | f + 1, side, t, self => do
    match ← addedStep side t self with
    | (t, false) => pure t
    | (t, true) => do
      match ← t.parentSide self with
      | none => pure t
      | some (up, parent) => added f up t parent

/-- `rightAdded(self, tree)`. -/
def rightAdded (t : AVLTree E) (self : ℕ) : Checked (AVLTree E) := added (t.allocated + 1) .right t self

/-- `leftAdded(self, tree)`. -/
def leftAdded (t : AVLTree E) (self : ℕ) : Checked (AVLTree E) := added (t.allocated + 1) .left t self

/-- What `gotOneShorter` does at one node; the second component is the root of the subtree, when it has
    gotten shorter as a whole. -/
def shorterStep (whichSide : Side) (t : AVLTree E) (self : ℕ) : Checked (AVLTree E × Option ℕ) := do
  let n ← t.get self
  if n.balance = .balanced then do
    -- We've just shrunk one subttree, but our depth has stayed the same.
    let t ← t.setBalance self (heavy whichSide.other)
    pure (t, none)
  else if n.balance = heavy whichSide then do
    let t ← t.setBalance self .balanced
    pure (t, some self)
  else do
    -- We've just gone out of balance.
    let heavyChild ← nonNull (n.child whichSide.other)
    let c ← t.get heavyChild
    if c.balance = heavy whichSide.other then do
      let t ← t.singleRotate self heavyChild whichSide.other
      pure (t, some heavyChild)
    else if c.balance = heavy whichSide then do
      let grandchild ← nonNull (c.child whichSide)
      let t ← t.doubleRotate self heavyChild (some grandchild) whichSide.other
      pure (t, some grandchild)
    else do
      liteAssert (c.balance = .balanced)
      let t ← t.singleRotate self heavyChild whichSide.other
      -- singleRotate has incorrectly set the balances; reset them
      let t ← t.setBalance self (heavy whichSide.other)
      let t ← t.setBalance heavyChild (heavy whichSide)
      pure (t, none)

/-- `gotOneShorter(self, tree, whichSide)`, with a bound. -/
def gotOneShorterFrom : ℕ → Side → AVLTree E → ℕ → Checked (AVLTree E)
  | 0, _, _, _ => .error .outOfFuel
  | f + 1, whichSide, t, self => do
    match ← shorterStep whichSide t self with
    | (t, none) => pure t
    | (t, some top) => do
      match ← t.parentSide top with
      | none => pure t
      | some (up, parent) => gotOneShorterFrom f up t parent

/-- `gotOneShorter(self, tree, whichSide)`. -/
def gotOneShorter (t : AVLTree E) (self : ℕ) (whichSide : Side) : Checked (AVLTree E) :=
  gotOneShorterFrom (t.allocated + 1) whichSide t self

section Insert

variable (c : AVLKeys E K)

/-- The loop of `insert` that finds the leaf position: the last node before it. -/
def leafPosition (t : AVLTree E) (key : K) : ℕ → Option ℕ → Option ℕ → Checked (Option ℕ)
  | 0, _, _ => .error .outOfFuel
  | _ + 1, none, previous => pure previous
  | f + 1, some current, _ => do
    let n ← t.get current
    let e ← n.getElement
    if c.lt (c.getKey e) key = true then leafPosition t key f n.right (some current)
    else do
      liteAssert (c.gt (c.getKey e) key = true)   -- Trying to insert a duplicate item.
      leafPosition t key f n.left (some current)

/-- `allocator.Allocate()`, `initialize`, `setElement(element)`, and the count of insertions. -/
def allocate (t : AVLTree E) (element : E) : AVLTree E :=
  { t.put t.allocated ⟨.new, none, none, none, some element⟩ with
    allocated := t.allocated + 1
    insertions := u32 (t.insertions + 1) }

/-- `AVLNodeLogic::insert(self, intoTree, element)`. -/
def insertNode (t : AVLTree E) (self : ℕ) (element : E) : Checked (AVLTree E) :=
  match t.tree with
  | none => setBalance { t with tree := some self } self .balanced
  | some root => do
    let previous ← leafPosition c t (c.getKey element) (t.allocated + 1) (some root) none
    let t ← t.setBalance self .balanced
    let t ← t.setParent self previous
    let previousNode ← nonNull previous
    let p ← t.get previousNode
    let e ← p.getElement
    if c.lt (c.getKey e) (c.getKey element) = true then do
      liteAssert (p.right = none)
      let t ← t.setChild previousNode .right (some self)
      t.rightAdded previousNode
    else do
      liteAssert (p.left = none)
      let t ← t.setChild previousNode .left (some self)
      t.leftAdded previousNode

/-- `insert(element)`. -/
def insert (t : AVLTree E) (element : E) : Checked (AVLTree E) :=
  insertNode c (t.allocate element) t.allocated element

end Insert

/-- A node with at most one child leaves the tree: the child, if any, takes its place, and the parent's
    subtree on that side is one shorter. -/
def spliceOut (t : AVLTree E) (self : ℕ) (parent child : Option ℕ) : Checked (AVLTree E) := do
  let t ← t.reparent child parent
  match parent with
  | none => do
    liteAssert (t.tree = some self)
    pure { t with tree := child }
  | some p => do
    let side ← t.sideOf .left self p
    let t ← t.setChild p side child
    t.gotOneShorter p side

/-- The assert on a node whose child on the other side is null: the child on this side is a leaf, or,
    where the source allows it, there is none. -/
def assertLeaf (t : AVLTree E) (n : AVLElement E) (side : Side) : Checked Unit :=
  match n.child side with
  | none =>
    if n.balance = .balanced then pure ()
    else if n.balance = heavy side then .error .nullDeref
    else .error .liteAssert
  | some child => do
    let c ← t.get child
    liteAssert (n.balance = heavy side ∧ c.balance = .balanced ∧ c.right = none ∧ c.left = none)

/-- The loop of `remove` to the smallest element of the right subtree. -/
def successorFrom (t : AVLTree E) : ℕ → ℕ → Checked ℕ
  | 0, _ => .error .outOfFuel
  | f + 1, successorCandidate => do
    let n ← t.get successorCandidate
    match n.left with
    | none => pure successorCandidate
    | some l => successorFrom t f l

/-- A node that has been cut out of the tree is promoted to our position, above both our subtrees. -/
def takePlace (t : AVLTree E) (self successor left right : ℕ) (balance : AVLBalance)
    (parent : Option ℕ) : Checked (AVLTree E) := do
  let t ← t.setChild successor .right (some right)
  let t ← t.setChild successor .left (some left)
  let t ← t.setBalance successor balance
  let t ← t.setParent right (some successor)
  let t ← t.setParent left (some successor)
  let t ← t.promote .left self parent (some successor)
  t.setParent successor parent

/-- Our right child is promoted to our position, above our left subtree. -/
def promoteRightChild (t : AVLTree E) (self successor left : ℕ) (balance : AVLBalance)
    (parent : Option ℕ) : Checked (AVLTree E) := do
  let t ← t.promote .right self parent (some successor)
  let t ← t.setParent successor parent
  let t ← t.setChild successor .left (some left)
  let t ← t.setParent left (some successor)
  t.setBalance successor balance

/-- `remove(self, fromTree)` on a node with two children: the symmetric successor takes its place. -/
def promoteSuccessor (t : AVLTree E) (self left right : ℕ) (balance : AVLBalance) (parent : Option ℕ) :
    Checked (AVLTree E) := do
  let successor ← t.successorFrom (t.allocated + 1) right
  let s ← t.get successor
  let shorterRoot ← nonNull s.parent
  let p ← t.get shorterRoot
  if p.left = some successor then do
    -- the successor's child (if any) is promoted to its position first
    let t ← t.setChild shorterRoot .left s.right
    let t ← t.reparent s.right (some shorterRoot)
    let t ← t.takePlace self successor left right balance parent
    t.gotOneShorter shorterRoot .left
  else do
    -- The successor was our child, just directly promote it.
    liteAssert (shorterRoot = self)
    let t ← t.promoteRightChild self successor left balance parent
    t.gotOneShorter successor .right

/-- `remove(self, fromTree)`: the three cases of the node's children. -/
def unlink (t : AVLTree E) (self : ℕ) (n : AVLElement E) : Checked (AVLTree E) :=
  match n.left, n.right with
  | none, right => do
    t.assertLeaf n .right
    t.spliceOut self n.parent right
  | some left, none => do
    t.assertLeaf n .left
    t.spliceOut self n.parent (some left)
  | some left, some right => t.promoteSuccessor self left right n.balance n.parent

/-- `remove(self, fromTree)` and `allocator.Free(self)`. -/
def removeNode (t : AVLTree E) (self : ℕ) : Checked (AVLTree E) := do
  let n ← t.get self
  liteAssert (n.balance = .right ∨ n.balance = .left ∨ n.balance = .balanced)
  let t ← unlink { t with deletions := u32 (t.deletions + 1) } self n
  pure { t with nodes := update t.nodes self none }

section Find

variable (c : AVLKeys E K)

/-- The recursion of the four `findFirst` functions of `AVLNodeLogic`: a node that `equal` accepts is the
    answer; one that `candidate` accepts is the answer unless there is one further on, on the side
    `onward`; any other sends the search to the opposite side. -/
def findFirstFrom (equal candidate : E → Bool) (onward : Side) (t : AVLTree E) :
    ℕ → ℕ → Checked (Option ℕ)
  | 0, _ => .error .outOfFuel
  | f + 1, self => do
    let n ← t.get self
    let e ← n.getElement
    if equal e = true then pure (some self)
    else if candidate e = true then
      match n.child onward with
      | none => pure (some self)
      | some next => do
        let retVal ← findFirstFrom equal candidate onward t f next
        pure (some (retVal.getD self))
    else
      match n.child onward.other with
      | none => pure none
      | some next => findFirstFrom equal candidate onward t f next

/-- The node that a `findFirst` function of the tree finds. -/
def findNode (equal candidate : E → Bool) (onward : Side) (t : AVLTree E) : Checked (Option ℕ) :=
  match t.tree with
  | none => pure none
  | some root => findFirstFrom equal candidate onward t (t.allocated + 1) root

/-- The element of the node that was found. -/
def elementOf (t : AVLTree E) : Option ℕ → Checked (Option E)
  | none => pure none
  | some a => do
    let n ← t.get a
    pure n.element

/-- `findFirstLessThan(key)`. -/
def findFirstLessThan (t : AVLTree E) (key : K) : Checked (Option E) := do
  let a ← t.findNode (fun _ => false) (fun e => c.lt (c.getKey e) key) .right
  t.elementOf a

/-- `AVLNodeLogic::findFirstLessThanOrEqualTo(tree, key)`. -/
def nodeLessThanOrEqualTo (t : AVLTree E) (key : K) : Checked (Option ℕ) :=
  t.findNode (fun e => c.eq (c.getKey e) key) (fun e => c.lt (c.getKey e) key) .right

/-- `findFirstLessThanOrEqualTo(key)`. -/
def findFirstLessThanOrEqualTo (t : AVLTree E) (key : K) : Checked (Option E) := do
  let a ← t.nodeLessThanOrEqualTo c key
  t.elementOf a

/-- `findFirstGreaterThan(key)`. -/
def findFirstGreaterThan (t : AVLTree E) (key : K) : Checked (Option E) := do
  let a ← t.findNode (fun _ => false) (fun e => c.gt (c.getKey e) key) .left
  t.elementOf a

/-- `findFirstGreaterThanOrEqualTo(key)`. -/
def findFirstGreaterThanOrEqualTo (t : AVLTree E) (key : K) : Checked (Option E) := do
  let a ← t.findNode (fun e => c.eq (c.getKey e) key) (fun e => c.gt (c.getKey e) key) .left
  t.elementOf a

/-- The loop of `findMin` and `findMax`: down one side, asserting that each key is on the right side of
    the one before it. -/
def outermost (inOrder : K → K → Bool) (side : Side) (t : AVLTree E) : ℕ → ℕ → Checked (Option E)
  | 0, _ => .error .outOfFuel
  | f + 1, candidate => do
    let n ← t.get candidate
    match n.child side with
    | none => pure n.element
    | some next => do
      let m ← t.get next
      let e ← n.getElement
      let e' ← m.getElement
      liteAssert (inOrder (c.getKey e') (c.getKey e) = true)
      outermost inOrder side t f next

/-- `findMin()`. -/
def findMin (t : AVLTree E) : Checked (Option E) :=
  match t.tree with
  | none => pure none
  | some root => outermost c c.le .left t (t.allocated + 1) root

/-- `findMax()`. -/
def findMax (t : AVLTree E) : Checked (Option E) :=
  match t.tree with
  | none => pure none
  | some root => outermost c c.ge .right t (t.allocated + 1) root

/-- `lookup(key)`. -/
def lookup (t : AVLTree E) (key : K) : Checked (Option E) := do
  let lookedUpElement ← t.findFirstLessThanOrEqualTo c key
  pure (lookedUpElement.filter fun e => c.eq (c.getKey e) key)

/-- `remove(element)`. -/
def remove (t : AVLTree E) (element : E) : Checked (AVLTree E) := do
  liteAssert (t.tree ≠ none)
  let candidate ← t.nodeLessThanOrEqualTo c (c.getKey element)
  let candidate ← nonNull candidate
  let n ← t.get candidate
  let e ← n.getElement
  liteAssert (c.eq (c.getKey e) (c.getKey element) = true)
  t.removeNode candidate

/-- `remove(key)`: the tree, and the element that was removed, if any. -/
def removeKey (t : AVLTree E) (key : K) : Checked (AVLTree E × Option E) := do
  match ← t.nodeLessThanOrEqualTo c key with
  | none => pure (t, none)
  | some candidate => do
    let n ← t.get candidate
    let e ← n.getElement
    if c.eq (c.getKey e) key = true then do
      let t ← t.removeNode candidate
      pure (t, some e)
    else pure (t, none)

end Find

end AVLTree

end Embassies.Utils
