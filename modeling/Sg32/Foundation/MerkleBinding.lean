/-
What the root of a hash tree determines.

An odd layer is completed by its last node, so a tree over `n` nodes looks like
the full tree over `2 ^ depth n` positions in which `place n p` is the node
that position `p` stands for.  When no two of the pairs that are combined
collide, the root determines all of these nodes, and nothing else.

* `walk_eq_root_iff` — a climb of full height ends in the root exactly from
  the node that its position stands for, along the siblings of that node;
* `walk_eq_root_iff_path` — a climb of any height;
* `root_eq_root_iff` — trees of one depth have one root exactly if they have
  the same node at every position.
-/
import Mathlib.Algebra.Group.Nat.Defs
import Mathlib.Logic.Function.Iterate
import Sg32.Foundation.MerkleFold

namespace MerkleFold

variable {α : Type} {h : α → α → α} {xs ys : List α}

/-! ### Positions -/

/-- The number of layers above `n` nodes. -/
def depth (n : ℕ) : ℕ := if 1 < n then depth ((n + 1) / 2) + 1 else 0

/-- The node that position `p` stands for: positions past the end of an odd
layer repeat its last node. -/
def place (n p : ℕ) : ℕ :=
  if 1 < n then min (2 * place ((n + 1) / 2) (p / 2) + p % 2) (n - 1) else 0

theorem depth_of_lt {n : ℕ} (hn : 1 < n) : depth n = depth ((n + 1) / 2) + 1 := by
  rw [depth, if_pos hn]

theorem depth_of_le {n : ℕ} (hn : n ≤ 1) : depth n = 0 := by
  rw [depth, if_neg (by omega)]

theorem length_layers (h : α → α → α) (xs : List α) :
    (layers h xs).length = depth xs.length + 1 := by
  induction hn : xs.length using Nat.strongRecOn generalizing xs with
  | ind n ih =>
    subst hn
    by_cases hlt : 1 < xs.length
    · rw [layers_of_lt hlt, List.length_cons, depth_of_lt hlt, ← length_pairUp h xs,
        ih _ (by rw [length_pairUp]; omega) _ rfl]
    · rw [layers_of_le (by omega), depth_of_le (by omega)]
      rfl

theorem one_lt_of_depth_eq {m n : ℕ} (h : depth m = depth n) (hm : 1 < m) : 1 < n := by
  by_contra hle
  rw [depth_of_lt hm, depth_of_le (n := n) (by omega)] at h
  omega

theorem pairUp_ne_nil (h : α → α → α) (hlt : 1 < xs.length) : pairUp h xs ≠ [] := by
  refine List.ne_nil_of_length_pos ?_
  rw [length_pairUp]
  omega

theorem place_lt {n : ℕ} (hn : 0 < n) (p : ℕ) : place n p < n := by
  rw [place]
  split_ifs with hlt
  · exact Nat.lt_of_le_of_lt (Nat.min_le_right _ _) (by omega)
  · exact hn

/-- A position in the layer stands for itself. -/
theorem place_of_lt {n p : ℕ} (hp : p < n) : place n p = p := by
  induction n using Nat.strongRecOn generalizing p with
  | ind n ih =>
    rw [place]
    split_ifs with hlt
    · rw [ih ((n + 1) / 2) (by omega) (show p / 2 < (n + 1) / 2 by omega)]
      omega
    · omega

/-- The position above stands for the node above. -/
theorem place_div_two {n : ℕ} (hn : 1 < n) (p : ℕ) :
    place ((n + 1) / 2) (p / 2) = place n p / 2 := by
  have hle := place_lt (n := (n + 1) / 2) (by omega) (p / 2)
  conv_rhs => rw [place, if_pos hn]
  omega

/-- The last position of the full tree stands for the last node. -/
theorem place_last {n : ℕ} (hn : 0 < n) : place n (2 ^ depth n - 1) = n - 1 := by
  induction n using Nat.strongRecOn with
  | ind n ih =>
    by_cases hlt : 1 < n
    · have habove := ih ((n + 1) / 2) (by omega) (by omega)
      have hpos := Nat.two_pow_pos (depth ((n + 1) / 2))
      have hhalf : (2 ^ (depth ((n + 1) / 2) + 1) - 1) / 2 = 2 ^ depth ((n + 1) / 2) - 1 := by
        omega
      rw [place, if_pos hlt, depth_of_lt hlt, hhalf, habove]
      omega
    · rw [place, if_neg hlt]
      omega

/-- The node at a position of the full tree. -/
def nodeAt (xs : List α) (p : ℕ) : Option α := xs[place xs.length p]?

theorem nodeAt_of_lt {p : ℕ} (hp : p < xs.length) : nodeAt xs p = xs[p]? := by
  rw [nodeAt, place_of_lt hp]

theorem nodeAt_map {β : Type} (f : α → β) (xs : List α) (p : ℕ) :
    nodeAt (xs.map f) p = (nodeAt xs p).map f := by
  rw [nodeAt, List.length_map, List.getElem?_map, nodeAt]

theorem exists_nodeAt (hne : xs ≠ []) (p : ℕ) : ∃ node ∈ xs, nodeAt xs p = some node := by
  have hlt := place_lt (List.length_pos_of_ne_nil hne) p
  exact ⟨xs[place xs.length p], List.getElem_mem hlt, List.getElem?_eq_getElem hlt⟩

/-! ### The pairs that are combined -/

/-- The pairs of one layer. -/
def layerPairs : List α → List (α × α)
  | [] => []
  | [a] => [(a, a)]
  | a :: b :: rest => (a, b) :: layerPairs rest

theorem pairUp_eq_map (h : α → α → α) (xs : List α) :
    pairUp h xs = (layerPairs xs).map fun p => h p.1 p.2 := by
  induction xs using layerPairs.induct with
  | case1 => rfl
  | case2 a => rfl
  | case3 a b rest ih => rw [pairUp, layerPairs, List.map_cons, ih]

theorem getElem?_layerPairs (xs : List α) {q : ℕ} (hq : 2 * q < xs.length) :
    ∃ a b, (layerPairs xs)[q]? = some (a, b) ∧ xs[2 * q]? = some a ∧
      xs[min (2 * q + 1) (xs.length - 1)]? = some b := by
  -- the last node of an odd layer is its own partner
  induction xs using layerPairs.induct generalizing q with
  | case1 => simp at hq
  | case2 a =>
    obtain rfl : q = 0 := by
      rw [List.length_singleton] at hq
      omega
    exact ⟨a, a, rfl, rfl, rfl⟩
  | case3 a b rest ih =>
    cases q with
    | zero => exact ⟨a, b, rfl, rfl, by simp⟩
    | succ q =>
      rw [List.length_cons, List.length_cons] at hq
      obtain ⟨c, d, hpair, hc, hd⟩ := ih (show 2 * q < rest.length by omega)
      refine ⟨c, d, hpair, hc, ?_⟩
      have hmin : min (2 * (q + 1) + 1) ((a :: b :: rest).length - 1) =
          min (2 * q + 1) (rest.length - 1) + 2 := by
        rw [List.length_cons, List.length_cons]
        omega
      rw [hmin]
      exact hd

/-- The pairs of all layers. -/
def treePairs (h : α → α → α) (xs : List α) : List (α × α) :=
  (layers h xs).dropLast.flatMap layerPairs

theorem treePairs_of_lt (hlt : 1 < xs.length) :
    treePairs h xs = layerPairs xs ++ treePairs h (pairUp h xs) := by
  rw [treePairs, layers_of_lt hlt, List.dropLast_cons_of_ne_nil (layers_ne_nil h _),
    List.flatMap_cons, treePairs]

/-- A node and its sibling on the sides that the position tells. -/
def orient (idx : ℕ) (node other : α) : α × α :=
  if idx % 2 = 0 then (node, other) else (other, node)

theorem combine_eq (h : α → α → α) (idx : ℕ) (node other : α) :
    combine h idx node other = h (orient idx node other).1 (orient idx node other).2 := by
  unfold combine orient
  split_ifs <;> rfl

/-- The pairs of a climb. -/
def walkPairs (h : α → α → α) : α → List α → ℕ → List (α × α)
  | _, [], _ => []
  | node, other :: proof, idx =>
    orient idx node other :: walkPairs h (combine h idx node other) proof (idx / 2)

/-- No pair of one list collides with another pair of the other. -/
def NoClash (h : α → α → α) (ps qs : List (α × α)) : Prop :=
  ∀ p ∈ ps, ∀ q ∈ qs, h p.1 p.2 = h q.1 q.2 → p = q

theorem NoClash.mono {ps ps' qs qs' : List (α × α)} (hfree : NoClash h ps qs) (hps : ps' ⊆ ps)
    (hqs : qs' ⊆ qs) : NoClash h ps' qs' :=
  fun p hp q hq => hfree p (hps hp) q (hqs hq)

/-- The two nodes below a position of the next layer. -/
theorem exists_children (h : α → α → α) (hlt : 1 < xs.length) (q : ℕ) :
    ∃ a b, (a, b) ∈ layerPairs xs ∧ nodeAt (pairUp h xs) q = some (h a b) ∧
      nodeAt xs (2 * q) = some a ∧ nodeAt xs (2 * q + 1) = some b := by
  have hlen := length_pairUp h xs
  have hplace := place_lt (n := (pairUp h xs).length) (by omega) q
  obtain ⟨a, b, hpair, ha, hb⟩ :=
    getElem?_layerPairs xs (show 2 * place (pairUp h xs).length q < xs.length by omega)
  refine ⟨a, b, List.mem_of_getElem? hpair, ?_, ?_, ?_⟩
  · rw [nodeAt, pairUp_eq_map, List.getElem?_map, ← pairUp_eq_map, hpair]
    rfl
  · have hleft : place xs.length (2 * q) = 2 * place (pairUp h xs).length q := by
      rw [place, if_pos hlt, ← hlen, Nat.mul_div_cancel_left _ Nat.two_pos]
      omega
    rw [nodeAt, hleft, ha]
  · -- past an odd end the right child is the left one again
    have hright : place xs.length (2 * q + 1) =
        min (2 * place (pairUp h xs).length q + 1) (xs.length - 1) := by
      rw [place, if_pos hlt, ← hlen, show (2 * q + 1) / 2 = q by omega]
      omega
    rw [nodeAt, hright, hb]

/-- The sibling of the node at a position is the node at the other position of
the pair. -/
theorem sibling_place (hlt : 1 < xs.length) (idx : ℕ) :
    sibling xs (place xs.length idx) =
      nodeAt xs (if idx % 2 = 0 then 2 * (idx / 2) + 1 else 2 * (idx / 2)) := by
  have hpos := place_lt (n := (xs.length + 1) / 2) (by omega) (idx / 2)
  have hself : place xs.length idx =
      min (2 * place ((xs.length + 1) / 2) (idx / 2) + idx % 2) (xs.length - 1) := by
    rw [place, if_pos hlt]
  have hleft : place xs.length (2 * (idx / 2)) = 2 * place ((xs.length + 1) / 2) (idx / 2) := by
    rw [place, if_pos hlt, Nat.mul_div_cancel_left _ Nat.two_pos]
    omega
  have hright : place xs.length (2 * (idx / 2) + 1) =
      min (2 * place ((xs.length + 1) / 2) (idx / 2) + 1) (xs.length - 1) := by
    rw [place, if_pos hlt, show (2 * (idx / 2) + 1) / 2 = idx / 2 by omega]
    omega
  unfold sibling nodeAt
  rcases Nat.mod_two_eq_zero_or_one idx with heven | hodd
  · -- the right node of the pair, or the last node itself
    rw [if_pos heven, hright, hself, heven, if_pos (by omega)]
    split_ifs with hnext
    · congr 1
      omega
    · congr 1
      omega
  · rw [if_neg (show ¬ idx % 2 = 0 by omega), hleft, hself, hodd]
    split_ifs with hrepeated hnext
    · omega
    · -- a repeated last node is its own sibling
      congr 1
      omega
    · congr 1
      omega

/-! ### Climbs of full height -/

/-- The parent of two nodes, read from the pair that gives it. -/
theorem nodeAt_pairUp_iff (hlt : 1 < xs.length) {idx : ℕ} {node other : α}
    (hfree : NoClash h (layerPairs xs) [orient idx node other]) :
    nodeAt (pairUp h xs) (idx / 2) = some (combine h idx node other) ↔
      nodeAt xs idx = some node ∧ sibling xs (place xs.length idx) = some other := by
  obtain ⟨a, b, hmem, hparent, ha, hb⟩ := exists_children h hlt (idx / 2)
  -- without a clash only the pair itself has this parent
  have hpair : nodeAt (pairUp h xs) (idx / 2) = some (combine h idx node other) ↔
      (a, b) = orient idx node other := by
    rw [hparent, combine_eq, Option.some.injEq]
    constructor
    · intro heq
      exact hfree _ hmem _ (List.mem_singleton_self _) heq
    · intro heq
      rw [← heq]
  rw [hpair, sibling_place hlt]
  rcases Nat.mod_two_eq_zero_or_one idx with heven | hodd
  · have hidx : 2 * (idx / 2) = idx := by omega
    rw [hidx] at ha
    rw [orient, if_pos heven, if_pos heven, ha, hb]
    simp
  · have hidx : 2 * (idx / 2) + 1 = idx := by omega
    rw [hidx] at hb
    rw [orient, if_neg (by omega), if_neg (by omega), ha, hb, Prod.mk.injEq, Option.some.injEq,
      Option.some.injEq, and_comm]

theorem root_singleton (h : α → α → α) (a : α) : root h [a] = some a := by
  rw [root, layers_of_le (by simp)]
  rfl

/-- **What ends in the root**: a climb of full height does exactly if it starts
from the node at its position and follows the siblings of that node. -/
theorem walk_eq_root_iff (hne : xs ≠ []) {node : α} {proof : List α} {idx : ℕ}
    (hlen : proof.length = depth xs.length)
    (hfree : NoClash h (treePairs h xs) (walkPairs h node proof idx)) :
    root h xs = some (walk h node proof idx) ↔
      nodeAt xs idx = some node ∧
        siblings (layers h xs).dropLast (place xs.length idx) = some proof := by
  -- induction on the number of nodes, one layer for each sibling
  induction hn : xs.length using Nat.strongRecOn generalizing xs node proof idx with
  | ind n ih =>
    subst hn
    have hpos := List.length_pos_of_ne_nil hne
    by_cases hlt : 1 < xs.length
    · rw [depth_of_lt hlt] at hlen
      obtain ⟨other, rest, rfl⟩ := List.exists_cons_of_length_eq_add_one hlen
      rw [treePairs_of_lt hlt] at hfree
      have hplace : place (pairUp h xs).length (idx / 2) = place xs.length idx / 2 := by
        rw [length_pairUp, place_div_two hlt]
      rw [root_of_lt hlt, walk, ih _ (by rw [length_pairUp]; omega) (pairUp_ne_nil h hlt)
        (by rw [length_pairUp]; simpa using hlen)
        (hfree.mono (List.subset_append_right _ _) (List.subset_cons_self _ _)) rfl,
        nodeAt_pairUp_iff hlt (hfree.mono (List.subset_append_left _ _) (by simp [walkPairs])),
        layers_of_lt hlt, List.dropLast_cons_of_ne_nil (layers_ne_nil h _), siblings, hplace]
      cases hsib : sibling xs (place xs.length idx) with
      | none => simp
      | some other' =>
        cases hrest : siblings (layers h (pairUp h xs)).dropLast (place xs.length idx / 2) with
        | none => simp
        | some rest' => simp [and_assoc]
    · obtain ⟨a, rfl⟩ := List.length_eq_one_iff.mp (show xs.length = 1 by omega)
      rw [depth_of_le (by simp)] at hlen
      obtain rfl := List.length_eq_zero_iff.mp hlen
      rw [root_singleton, walk, nodeAt, layers_of_le (by simp), place, if_neg (by simp)]
      simp [siblings]

/-! ### Climbs of any height -/

/-- The layer `j` steps up. -/
def layerAt (h : α → α → α) (xs : List α) (j : ℕ) : List α := (pairUp h)^[j] xs

@[simp] theorem layerAt_zero (h : α → α → α) (xs : List α) : layerAt h xs 0 = xs := rfl

theorem layerAt_succ (h : α → α → α) (xs : List α) (j : ℕ) :
    layerAt h xs (j + 1) = layerAt h (pairUp h xs) j := rfl

theorem layerAt_succ' (h : α → α → α) (xs : List α) (j : ℕ) :
    layerAt h xs (j + 1) = pairUp h (layerAt h xs j) := Function.iterate_succ_apply' _ _ _

/-- A layer of the tree has the rest of the tree above it. -/
theorem layerAt_spec (hne : xs ≠ []) {j : ℕ} (hj : j ≤ depth xs.length) :
    layerAt h xs j ≠ [] ∧ root h (layerAt h xs j) = root h xs ∧
      depth (layerAt h xs j).length + j = depth xs.length ∧
      treePairs h (layerAt h xs j) ⊆ treePairs h xs := by
  -- induction on the steps up; a tree of one node has no layer above
  induction j generalizing xs with
  | zero => exact ⟨hne, rfl, rfl, List.Subset.refl _⟩
  | succ j ih =>
    have hlt : 1 < xs.length := by
      by_contra hle
      rw [depth_of_le (by omega)] at hj
      omega
    have hdepth := depth_of_lt hlt
    obtain ⟨hne', hroot, hdepth', hpairs⟩ :=
      ih (pairUp_ne_nil h hlt) (by rw [length_pairUp]; omega)
    rw [layerAt_succ]
    refine ⟨hne', by rw [hroot, root_of_lt hlt], ?_, ?_⟩
    · rw [length_pairUp] at hdepth'
      omega
    · rw [treePairs_of_lt hlt]
      exact List.Subset.trans hpairs (List.subset_append_right _ _)

theorem walk_append (h : α → α → α) (node : α) (low high : List α) (idx : ℕ) :
    walk h node (low ++ high) idx = walk h (walk h node low idx) high (idx / 2 ^ low.length) := by
  induction low generalizing node idx with
  | nil => simp [walk]
  | cons other low ih =>
    rw [List.cons_append, walk, walk, ih, List.length_cons, Nat.pow_succ', Nat.div_div_eq_div_mul]

theorem walkPairs_append (h : α → α → α) (node : α) (low high : List α) (idx : ℕ) :
    walkPairs h node (low ++ high) idx =
      walkPairs h node low idx ++
        walkPairs h (walk h node low idx) high (idx / 2 ^ low.length) := by
  induction low generalizing node idx with
  | nil => simp [walk, walkPairs]
  | cons other low ih =>
    rw [List.cons_append, walkPairs, walkPairs, walk, ih, List.length_cons, Nat.pow_succ',
      Nat.div_div_eq_div_mul, List.cons_append]

/-- A path of the tree: from a node of the layer that is as far below the root
as the proof is long, along its siblings.  A proof that is longer than the tree
is high starts below a leaf. -/
def IsPath (h : α → α → α) (xs : List α) (node : α) (proof : List α) (idx : ℕ) : Prop :=
  let layer := layerAt h xs (depth xs.length - proof.length)
  let below := proof.length - depth xs.length
  nodeAt layer (idx / 2 ^ below) = some (walk h node (proof.take below) idx) ∧
    siblings (layers h layer).dropLast (place layer.length (idx / 2 ^ below)) =
      some (proof.drop below)

/-- A climb ends in the root exactly if it is a path of the tree. -/
theorem walk_eq_root_iff_path (hne : xs ≠ []) {node : α} {proof : List α} {idx : ℕ}
    (hfree : NoClash h (treePairs h xs) (walkPairs h node proof idx)) :
    root h xs = some (walk h node proof idx) ↔ IsPath h xs node proof idx := by
  obtain ⟨hne', hroot, hdepth, hpairs⟩ :=
    layerAt_spec (h := h) hne (Nat.sub_le (depth xs.length) proof.length)
  have hsplit := List.take_append_drop (proof.length - depth xs.length) proof
  have hlow : (proof.take (proof.length - depth xs.length)).length =
      proof.length - depth xs.length := by
    rw [List.length_take]
    omega
  have hwalk := walk_append h node (proof.take (proof.length - depth xs.length))
    (proof.drop (proof.length - depth xs.length)) idx
  rw [hsplit, hlow] at hwalk
  have hwalkPairs := walkPairs_append h node (proof.take (proof.length - depth xs.length))
    (proof.drop (proof.length - depth xs.length)) idx
  rw [hsplit, hlow] at hwalkPairs
  rw [hwalk, ← hroot, IsPath]
  refine walk_eq_root_iff hne' ?_ (hfree.mono hpairs ?_)
  · rw [List.length_drop]
    omega
  · rw [hwalkPairs]
    exact List.subset_append_right _ _

/-! ### Equal roots -/

/-- Two parents are equal when both their children are. -/
theorem nodeAt_pairUp_eq_iff (hlt : 1 < xs.length) (hlt' : 1 < ys.length)
    (hfree : NoClash h (layerPairs xs) (layerPairs ys)) (q : ℕ) :
    nodeAt (pairUp h xs) q = nodeAt (pairUp h ys) q ↔
      nodeAt xs (2 * q) = nodeAt ys (2 * q) ∧
        nodeAt xs (2 * q + 1) = nodeAt ys (2 * q + 1) := by
  obtain ⟨a, b, hmem, hparent, ha, hb⟩ := exists_children h hlt q
  obtain ⟨c, d, hmem', hparent', hc, hd⟩ := exists_children h hlt' q
  rw [hparent, hparent', ha, hb, hc, hd, Option.some.injEq, Option.some.injEq, Option.some.injEq]
  constructor
  · intro heq
    exact Prod.mk.inj (hfree _ hmem _ hmem' heq)
  · rintro ⟨rfl, rfl⟩
    rfl

/-- Every position is the left or the right one of a pair. -/
theorem forall_pair_iff {P : ℕ → Prop} : (∀ q, P (2 * q) ∧ P (2 * q + 1)) ↔ ∀ p, P p := by
  constructor
  · intro hpairs p
    obtain ⟨hleft, hright⟩ := hpairs (p / 2)
    rcases Nat.mod_two_eq_zero_or_one p with heven | hodd
    · rwa [show 2 * (p / 2) = p by omega] at hleft
    · rwa [show 2 * (p / 2) + 1 = p by omega] at hright
  · intro hall q
    exact ⟨hall _, hall _⟩

/-- **What a root determines**: trees of one depth have the same root exactly
if they have the same node at every position. -/
theorem root_eq_root_iff (hxs : xs ≠ []) (hys : ys ≠ [])
    (hdepth : depth xs.length = depth ys.length)
    (hfree : NoClash h (treePairs h xs) (treePairs h ys)) :
    root h xs = root h ys ↔ ∀ p, nodeAt xs p = nodeAt ys p := by
  -- induction on the number of nodes: both trees lose a layer at a time
  induction hn : xs.length using Nat.strongRecOn generalizing xs ys with
  | ind n ih =>
    subst hn
    have hposx := List.length_pos_of_ne_nil hxs
    have hposy := List.length_pos_of_ne_nil hys
    by_cases hlt : 1 < xs.length
    · have hlt' : 1 < ys.length := one_lt_of_depth_eq hdepth hlt
      rw [depth_of_lt hlt, depth_of_lt hlt', Nat.add_right_cancel_iff, ← length_pairUp h,
        ← length_pairUp h] at hdepth
      rw [treePairs_of_lt hlt, treePairs_of_lt hlt'] at hfree
      have hlayer : NoClash h (layerPairs xs) (layerPairs ys) :=
        hfree.mono (List.subset_append_left _ _) (List.subset_append_left _ _)
      have habove : NoClash h (treePairs h (pairUp h xs)) (treePairs h (pairUp h ys)) :=
        hfree.mono (List.subset_append_right _ _) (List.subset_append_right _ _)
      rw [root_of_lt hlt, root_of_lt hlt', ih _ (by rw [length_pairUp]; omega)
        (pairUp_ne_nil h hlt) (pairUp_ne_nil h hlt') hdepth habove rfl]
      exact (forall_congr' (nodeAt_pairUp_eq_iff hlt hlt' hlayer)).trans
        (forall_pair_iff (P := fun p => nodeAt xs p = nodeAt ys p))
    · have hle : ¬ 1 < ys.length := fun hgt => hlt (one_lt_of_depth_eq hdepth.symm hgt)
      obtain ⟨a, rfl⟩ := List.length_eq_one_iff.mp (show xs.length = 1 by omega)
      obtain ⟨b, rfl⟩ := List.length_eq_one_iff.mp (show ys.length = 1 by omega)
      -- every position stands for the only node
      have hplace : ∀ p, place 1 p = 0 := by
        intro p
        have hlt := place_lt Nat.one_pos p
        omega
      simp [root_singleton, nodeAt, hplace]

end MerkleFold
