/-
Hash trees built layer by layer.

`pairUp h` combines a layer two by two, the last node with itself when the
layer is odd; `layers h` repeats this down to one node.  `walk h` climbs from a
node along its siblings.

* `getElem?_pairUp` — the parent of a node combines it with its sibling;
* `exists_siblings` — the siblings of a position lead from its node to the
  root;
* `exists_root` — the root is a node or a combination of two.
-/
import Mathlib.Data.List.Basic
import Mathlib.Tactic.Common

namespace MerkleFold

variable {α : Type}

/-- The layer above: nodes are combined in pairs, a last one with itself. -/
def pairUp (h : α → α → α) : List α → List α
  | [] => []
  | [a] => [h a a]
  | a :: b :: rest => h a b :: pairUp h rest

theorem length_pairUp (h : α → α → α) (xs : List α) :
    (pairUp h xs).length = (xs.length + 1) / 2 := by
  induction xs using pairUp.induct with
  | case1 => simp [pairUp]
  | case2 a => simp [pairUp]
  | case3 a b rest ih =>
    rw [pairUp, List.length_cons, ih, List.length_cons, List.length_cons]
    omega

/-- All layers, from the leaves up to a layer of at most one node. -/
def layers (h : α → α → α) (xs : List α) : List (List α) :=
  if 1 < xs.length then xs :: layers h (pairUp h xs) else [xs]
termination_by xs.length
decreasing_by
  rw [length_pairUp]
  omega

theorem layers_of_lt {h : α → α → α} {xs : List α} (hlt : 1 < xs.length) :
    layers h xs = xs :: layers h (pairUp h xs) := by
  rw [layers, if_pos hlt]

theorem layers_of_le {h : α → α → α} {xs : List α} (hle : xs.length ≤ 1) :
    layers h xs = [xs] := by
  rw [layers, if_neg (by omega)]

theorem layers_ne_nil (h : α → α → α) (xs : List α) : layers h xs ≠ [] := by
  rw [layers]
  split_ifs <;> simp

/-- The only node of the last layer, when there is one. -/
def root (h : α → α → α) (xs : List α) : Option α :=
  (layers h xs).getLast?.bind List.head?

theorem root_of_lt {h : α → α → α} {xs : List α} (hlt : 1 < xs.length) :
    root h xs = root h (pairUp h xs) := by
  rw [root, layers_of_lt hlt, List.getLast?_cons_of_ne_nil (layers_ne_nil h _), root]

/-- The node that a node is combined with. -/
def sibling (layer : List α) (idx : ℕ) : Option α :=
  if idx % 2 = 0 then
    if idx + 1 < layer.length then layer[idx + 1]? else layer[idx]?
  else layer[idx - 1]?

/-- The siblings on the way up from position `idx`. -/
def siblings : List (List α) → ℕ → Option (List α)
  | [], _ => some []
  | layer :: layers, idx => do
    let node ← sibling layer idx
    let proof ← siblings layers (idx / 2)
    some (node :: proof)

/-- A node combined with its sibling on the side that its position tells. -/
def combine (h : α → α → α) (idx : ℕ) (node other : α) : α :=
  if idx % 2 = 0 then h node other else h other node

/-- Climb from a node at position `idx` along a list of siblings. -/
def walk (h : α → α → α) : α → List α → ℕ → α
  | node, [], _ => node
  | node, other :: proof, idx => walk h (combine h idx node other) proof (idx / 2)

/-- The parent of a node combines it with its sibling. -/
theorem getElem?_pairUp (h : α → α → α) {xs : List α} {idx : ℕ} {node : α}
    (hnode : xs[idx]? = some node) :
    ∃ other, sibling xs idx = some other ∧
      (pairUp h xs)[idx / 2]? = some (combine h idx node other) := by
  induction xs using pairUp.induct generalizing idx with
  | case1 => simp at hnode
  | case2 a =>
    obtain rfl : idx = 0 := by
      have := (List.getElem?_eq_some_iff.mp hnode).choose
      simpa using this
    cases hnode
    exact ⟨node, rfl, rfl⟩
  | case3 a b rest ih =>
    match idx, hnode with
    | 0, hnode =>
      cases hnode
      exact ⟨b, by simp [sibling], by simp [pairUp, combine]⟩
    | 1, hnode =>
      cases hnode
      exact ⟨a, by simp [sibling], by simp [pairUp, combine]⟩
    | idx + 2, hnode =>
      have hrest : rest[idx]? = some node := hnode
      obtain ⟨other, hother, hparent⟩ := ih hrest
      have hmod : (idx + 2) % 2 = idx % 2 := Nat.add_mod_right idx 2
      have hdiv : (idx + 2) / 2 = idx / 2 + 1 := Nat.add_div_right idx Nat.two_pos
      refine ⟨other, ?_, ?_⟩
      · rw [← hother, sibling, sibling, hmod]
        by_cases heven : idx % 2 = 0
        · have hiff : idx + 2 + 1 < (a :: b :: rest).length ↔ idx + 1 < rest.length := by
            simp only [List.length_cons]
            omega
          simp only [heven, hiff, if_true, List.getElem?_cons_succ]
        · have hpred : idx + 2 - 1 = (idx - 1) + 2 := by omega
          simp [heven, hpred]
      · rw [hdiv, pairUp, List.getElem?_cons_succ, hparent, combine, combine, hmod]

/-- **The siblings of a position lead to the root**, one for each layer below
it. -/
theorem exists_siblings (h : α → α → α) {xs : List α} {idx : ℕ} {node : α}
    (hnode : xs[idx]? = some node) :
    ∃ proof, siblings (layers h xs).dropLast idx = some proof ∧
      root h xs = some (walk h node proof idx) ∧
      proof.length = (layers h xs).length - 1 := by
  -- induction on the number of nodes: each layer has fewer
  induction hn : xs.length using Nat.strongRecOn generalizing xs idx node with
  | ind n ih =>
    by_cases hlt : 1 < xs.length
    · obtain ⟨other, hother, hparent⟩ := getElem?_pairUp h hnode
      obtain ⟨proof, hproof, hroot, hlen⟩ := ih (pairUp h xs).length
        (by rw [length_pairUp]; omega) hparent rfl
      have hpos := List.length_pos_iff.mpr (layers_ne_nil h (pairUp h xs))
      refine ⟨other :: proof, ?_, ?_, ?_⟩
      · rw [layers_of_lt hlt, List.dropLast_cons_of_ne_nil (layers_ne_nil h _), siblings, hother,
          hproof]
        rfl
      · rw [root_of_lt hlt, hroot, walk]
      · rw [layers_of_lt hlt, List.length_cons, List.length_cons, hlen]
        omega
    · have hzero : idx = 0 := by
        have := (List.getElem?_eq_some_iff.mp hnode).choose
        omega
      subst hzero
      rw [root, layers_of_le (by omega)]
      refine ⟨[], rfl, ?_, rfl⟩
      rw [List.getLast?_singleton, Option.bind_some, List.head?_eq_getElem?, hnode, walk]

/-- A climb stays at its node or ends in a combination. -/
theorem walk_cases (h : α → α → α) (node : α) (proof : List α) (idx : ℕ) :
    walk h node proof idx = node ∨ ∃ a b, walk h node proof idx = h a b := by
  induction proof generalizing node idx with
  | nil => exact .inl rfl
  | cons other proof ih =>
    have hcombine : ∃ a b, combine h idx node other = h a b := by
      unfold combine
      split_ifs
      · exact ⟨node, other, rfl⟩
      · exact ⟨other, node, rfl⟩
    rcases ih (combine h idx node other) (idx / 2) with hstay | hend
    · obtain ⟨a, b, hab⟩ := hcombine
      exact .inr ⟨a, b, hstay.trans hab⟩
    · exact .inr hend

/-- The root of some nodes is one of them or a combination. -/
theorem exists_root (h : α → α → α) {xs : List α} (hne : xs ≠ []) :
    ∃ top, root h xs = some top ∧ (top ∈ xs ∨ ∃ a b, top = h a b) := by
  obtain ⟨node, rest, rfl⟩ := List.exists_cons_of_ne_nil hne
  have hfirst : (node :: rest)[0]? = some node := rfl
  obtain ⟨proof, -, hroot, -⟩ := exists_siblings h hfirst
  refine ⟨_, hroot, ?_⟩
  rcases walk_cases h node proof 0 with hstay | hend
  · rw [hstay]
    exact .inl List.mem_cons_self
  · exact .inr hend

end MerkleFold
