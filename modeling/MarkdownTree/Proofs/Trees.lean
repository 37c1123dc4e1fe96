import MarkdownTree.Proofs.Replacing
import MarkdownTree.Proofs.Subtrees

/-!
Trees as values: a node with the list of the trees below it. A tree in a forest depends on the
children of the nodes at or below its root only. A tree with a hole is the list of what is around
the hole, from the inside out; a replacement that takes nodes from nowhere else in the tree fills
the hole and leaves what is around it.
-/

namespace MarkdownTree

/-- A tree: a node, and the trees right below it, in order. -/
inductive Tree where
  | node (root : NodeId) (children : List Tree)

namespace Tree

def root : Tree → NodeId
  | node root _ => root

def children : Tree → List Tree
  | node _ children => children

@[simp] theorem root_node (n : NodeId) (trees : List Tree) : (node n trees).root = n := rfl

@[simp] theorem children_node (n : NodeId) (trees : List Tree) :
    (node n trees).children = trees := rfl

theorem node_root_children (t : Tree) : node t.root t.children = t := by
  cases t
  rfl

mutual

def preorder : Tree → List NodeId
  | node root children => root :: preorders children

def preorders : List Tree → List NodeId
  | [] => []
  | t :: trees => t.preorder ++ preorders trees

end

theorem preorders_eq_flatMap (trees : List Tree) : preorders trees = trees.flatMap preorder := by
  induction trees with
  | nil => rfl
  | cons t trees ih => rw [preorders, ih, List.flatMap_cons]

end Tree

/-- What is around a tree: the node over it, and the trees to its left and to its right. -/
structure Branch where
  node : NodeId
  left : List Tree
  right : List Tree

/-- A tree in the middle of branches, the innermost branch first. -/
def plug : List Branch → Tree → Tree
  | [], t => t
  | branch :: branches, t => plug branches (.node branch.node (branch.left ++ t :: branch.right))

namespace Forest

variable {f g : Forest} {c d k m n p root : NodeId} {nodes before after : List NodeId}
  {branches : List Branch} {branch : Branch} {t : Tree} {left trees right : List Tree}

def treeWithin (f : Forest) : Nat → NodeId → Tree
  | 0, n => .node n []
  | depth + 1, n => .node n ((f.children n).map (treeWithin f depth))

def tree (f : Forest) (n : NodeId) : Tree :=
  f.treeWithin (f.size + 1) n

theorem WellFormed.tree_eq (hf : f.WellFormed) (n : NodeId) :
    f.tree n = .node n ((f.children n).map f.tree) := by
  refine congrArg (Tree.node n) (List.map_congr_left fun c hc => eq_at_child hf ?_ hc)
  exact fun depth depth' n h => congrArg (Tree.node n) (List.map_congr_left h)

@[simp] theorem root_tree (f : Forest) (n : NodeId) : (f.tree n).root = n := rfl

theorem WellFormed.children_tree (hf : f.WellFormed) (n : NodeId) :
    (f.tree n).children = (f.children n).map f.tree := by
  rw [hf.tree_eq]
  rfl

theorem WellFormed.preorder_tree (hf : f.WellFormed) (n : NodeId) :
    (f.tree n).preorder = f.preorder n := by
  induction n using hf.down_induction with
  | h n ih =>
      rw [hf.tree_eq, Tree.preorder, Tree.preorders_eq_flatMap, List.flatMap_map, hf.preorder_eq]
      exact congrArg (n :: ·) (List.flatMap_congr ih)

@[simp] theorem map_root_map_tree (f : Forest) (nodes : List NodeId) :
    (nodes.map f.tree).map Tree.root = nodes := by
  rw [List.map_map]
  exact List.map_id'' (root_tree f) nodes

/-- A tree stays as it is if the children of all its nodes do. -/
theorem tree_congr (hf : f.WellFormed) (hg : g.WellFormed)
    (h : ∀ k, f.AtOrAbove n k → g.children k = f.children k) : g.tree n = f.tree n := by
  induction n using hf.down_induction with
  | h n ih =>
      rw [hg.tree_eq, hf.tree_eq, h n (.refl f n)]
      congr 1
      refine List.map_congr_left fun c hc => ih c hc fun k hk => h k ?_
      exact (hf.ancestor_of_mem hc).atOrAbove.trans hk

/-- What stands among branches in a tree of the forest is itself a tree of the forest, and so is
everything around it. -/
theorem tree_of_plug (hf : f.WellFormed) (h : f.tree root = plug branches t) :
    f.tree t.root = t := by
  induction branches generalizing t with
  | nil =>
      change f.tree root = t at h
      rw [← h, root_tree]
  | cons branch branches ih =>
      have hover := ih h
      rw [Tree.root_node, hf.tree_eq, Tree.node.injEq] at hover
      have hmem : t ∈ (f.children branch.node).map f.tree := by
        rw [hover.2]
        exact List.mem_append_right _ List.mem_cons_self
      obtain ⟨n, -, rfl⟩ := List.mem_map.1 hmem
      rfl

theorem children_of_plug (hf : f.WellFormed) (h : f.tree root = plug branches (.node p trees)) :
    f.children p = trees.map Tree.root := by
  have htree := tree_of_plug hf h
  rw [Tree.root_node, hf.tree_eq, Tree.node.injEq] at htree
  rw [← htree.2, map_root_map_tree]

theorem tree_of_mem_plug (hf : f.WellFormed) (h : f.tree root = plug branches (.node p trees))
    (ht : t ∈ trees) : f.tree t.root = t := by
  have htree := tree_of_plug hf h
  rw [Tree.root_node, hf.tree_eq, Tree.node.injEq] at htree
  rw [← htree.2] at ht
  obtain ⟨n, -, rfl⟩ := List.mem_map.1 ht
  rfl

/-- The trees to the left and to the right of a tree stand at other children of the node over it. -/
theorem beside_of_plug (hf : f.WellFormed)
    (h : f.tree root = plug branches (.node p (left ++ t :: right))) {s : Tree}
    (hs : s ∈ left ++ right) : s.root ∈ f.children p ∧ s.root ≠ t.root ∧ f.tree s.root = s := by
  have hlist := children_of_plug hf h
  have hnodup := hf.nodup_children p
  rw [hlist, List.map_append, List.map_cons, List.nodup_middle, List.nodup_cons,
    ← List.map_append] at hnodup
  have hmem : s ∈ left ++ t :: right := by
    rcases List.mem_append.1 hs with hs | hs
    · exact List.mem_append_left _ hs
    · exact List.mem_append_right _ (List.mem_cons_of_mem t hs)
  refine ⟨?_, ?_, tree_of_mem_plug hf h hmem⟩
  · rw [hlist]
    exact List.mem_map_of_mem hmem
  · exact fun heq => hnodup.1 (heq ▸ List.mem_map_of_mem hs)

theorem map_tree_of_forall (h : ∀ t ∈ trees, f.tree t.root = t) :
    (trees.map Tree.root).map f.tree = trees := by
  rw [List.map_map]
  exact (List.map_congr_left h).trans (List.map_id trees)

/-- The nodes of the branches are over the tree among them. -/
theorem over_of_plug (hf : f.WellFormed) (h : f.tree root = plug branches t)
    (hbranch : branch ∈ branches) : f.Ancestor branch.node t.root := by
  induction branches generalizing t with
  | nil => exact absurd hbranch List.not_mem_nil
  | cons inner branches ih =>
      have hinner : f.Ancestor inner.node t.root := by
        refine hf.ancestor_of_mem ?_
        rw [children_of_plug hf h]
        exact List.mem_map_of_mem (List.mem_append_right _ List.mem_cons_self)
      rcases List.mem_cons.1 hbranch with rfl | hbranch
      · exact hinner
      · exact (ih h hbranch).trans hinner

theorem root_over_of_plug (hf : f.WellFormed) (h : f.tree root = plug branches t) :
    f.AtOrAbove root t.root := by
  induction branches generalizing t with
  | nil =>
      change f.tree root = t at h
      rw [← h]
      exact .refl f root
  | cons inner branches ih =>
      have hinner : inner.node = (Tree.node inner.node (inner.left ++ t :: inner.right)).root := rfl
      refine ((ih h).trans_ancestor ?_).atOrAbove
      rw [← hinner]
      exact over_of_plug hf h List.mem_cons_self

theorem nodup_of_plug (hf : f.WellFormed) (h : f.tree root = plug branches t) :
    (t.root :: branches.map (·.node)).Nodup := by
  induction branches generalizing t with
  | nil => exact List.nodup_singleton t.root
  | cons branch branches ih =>
      refine List.nodup_cons.2 ⟨fun hmem => ?_, ih h⟩
      obtain ⟨other, hother, heq⟩ := List.mem_map.1 hmem
      exact hf.not_ancestor_self t.root (heq ▸ over_of_plug hf h hother)

/-- A change of the forest at or below one node, the root of the tree among the branches, leaves the
branches. -/
theorem tree_eq_plug (hf : f.WellFormed) (hg : g.WellFormed) (h : f.tree root = plug branches t)
    (hsame : ∀ k, f.AtOrAbove root k → ¬ f.AtOrAbove t.root k → g.children k = f.children k) :
    g.tree root = plug branches (g.tree t.root) := by
  induction branches generalizing t with
  | nil =>
      change f.tree root = t at h
      rw [← h]
      rfl
  | cons branch branches ih =>
      have hlist := children_of_plug hf h
      rw [List.map_append, List.map_cons] at hlist
      have hroot : f.AtOrAbove root branch.node := root_over_of_plug (t := .node _ _) hf h
      have ht : t.root ∈ f.children branch.node := by simp [hlist]
      have hnode : g.children branch.node = f.children branch.node :=
        hsame _ hroot fun hover => hf.not_atOrAbove_of_mem ht (.refl f _) hover
      -- The trees to the left and to the right share no node with the tree between them.
      have hbeside {s : Tree} (hs : s ∈ branch.left ++ branch.right) : g.tree s.root = s := by
        obtain ⟨hmem, hne, hold⟩ := beside_of_plug hf h hs
        refine Eq.trans (tree_congr hf hg fun k hk => hsame k ?_ fun htk => ?_) hold
        · exact (hroot.trans_ancestor (hf.ancestor_of_mem hmem)).atOrAbove.trans hk
        · exact hne (hf.eq_of_siblings hmem ht hk htk)
      have hplugged := ih h fun k hk hnot => hsame k hk fun htk =>
        hnot ((hf.ancestor_of_mem ht).atOrAbove.trans htk)
      have hleft : (branch.left.map Tree.root).map g.tree = branch.left :=
        map_tree_of_forall fun s hs => hbeside (List.mem_append_left _ hs)
      have hright : (branch.right.map Tree.root).map g.tree = branch.right :=
        map_tree_of_forall fun s hs => hbeside (List.mem_append_right _ hs)
      rw [hplugged, Tree.root_node, hg.tree_eq, hnode, hlist, List.map_append, List.map_cons, hleft,
        hright]
      rfl

/-- A node is `c` itself, a child of it, or detached. -/
def Near (f : Forest) (c m : NodeId) : Prop :=
  m = c ∨ m ∈ f.children c ∨ f.parent? m = none

/-- The tree that a node stands for when `nodes` take the place of a tree: the root of that tree
keeps those of its children that are not among them; another node comes with all that is below
it. -/
def named (f : Forest) (old : Tree) (nodes : List NodeId) (m : NodeId) : Tree :=
  if m = old.root then .node m (old.children.filter (!nodes.contains ·.root))
  else (old.children.find? (·.root == m)).getD (f.tree m)

@[simp] theorem root_named (f : Forest) (old : Tree) (nodes : List NodeId) (m : NodeId) :
    (f.named old nodes m).root = m := by
  unfold named
  split
  · rfl
  · cases hfind : old.children.find? (·.root == m) with
    | none => rfl
    | some t => simpa using List.find?_some hfind

/-- In a tree of the forest, a child stands for its tree there. -/
theorem named_of_ne (hold : ∀ s ∈ t.children, f.tree s.root = s) (hne : m ≠ t.root) :
    f.named t nodes m = f.tree m := by
  rw [named, if_neg hne]
  cases hfind : t.children.find? (·.root == m) with
  | none => rfl
  | some s =>
      have hroot : s.root = m := by simpa using List.find?_some hfind
      rw [← hroot, hold s (List.mem_of_find?_eq_some hfind)]
      rfl

section
variable (hf : f.WellFormed) (hlist : f.children p = before ++ c :: after)
  (hnear : ∀ m ∈ nodes, f.Near c m)

include hf hlist hnear

theorem not_mem_nodes_of_parent (hk : k ∈ f.children d) (hkc : k ≠ c) (hd : d ≠ c) :
    k ∉ nodes := by
  intro hkn
  rcases hnear k hkn with rfl | hchild | hnone
  · exact hkc rfl
  · exact hd (hf.parent_unique hk hchild)
  · rw [hf.parent?_of_mem hk] at hnone
    cases hnone

/-- Only the parent gets other children, and only the child that is replaced loses some. -/
theorem children_replaced_of_near (hdp : d ≠ p) (hdc : d ≠ c) :
    (f.replaced p c before after nodes).children d = f.children d := by
  rw [children_replaced hf hlist, if_neg hdp]
  refine List.filter_eq_self.2 fun k hk => ?_
  have hkc : k ≠ c := by
    rintro rfl
    exact hdp (hf.parent_unique hk (by simp [hlist]))
  simpa using not_mem_nodes_of_parent hf hlist hnear hk hkc hdc

/-- The other children of the parent stay where they are. -/
theorem without_of_near : without before nodes = before ∧ without after nodes = after := by
  have hmem : c ∈ f.children p := by simp [hlist]
  have hnodup := hf.nodup_children p
  rw [hlist, List.nodup_middle, List.nodup_cons] at hnodup
  have hpc : p ≠ c := by
    rintro rfl
    exact hf.not_atOrAbove_of_mem hmem (.refl f p) (.refl f p)
  have hstays (k : NodeId) (hk : k ∈ before ++ after) : k ∉ nodes := by
    refine not_mem_nodes_of_parent hf hlist hnear (d := p) ?_ ?_ hpc
    · rw [hlist]
      rcases List.mem_append.1 hk with hk | hk
      · exact List.mem_append_left _ hk
      · exact List.mem_append_right _ (List.mem_cons_of_mem c hk)
    · rintro rfl
      exact hnodup.1 hk
  constructor
  · refine List.filter_eq_self.2 fun k hk => ?_
    have hno := hstays k (List.mem_append_left _ hk)
    simpa using hno
  · refine List.filter_eq_self.2 fun k hk => ?_
    have hno := hstays k (List.mem_append_right _ hk)
    simpa using hno

/-- A tree that neither the parent nor the child belongs to stays as it is. -/
theorem tree_replaced_of_not_over (hfit : f.AllFit p nodes) (hlt : ∀ k ∈ nodes, k < f.size)
    (hnp : ¬ f.AtOrAbove n p) (hnc : n ≠ c) :
    (f.replaced p c before after nodes).tree n = f.tree n := by
  have hmem : c ∈ f.children p := by simp [hlist]
  refine tree_congr hf (hf.replaced hlist hfit hlt) fun k hk => ?_
  refine children_replaced_of_near hf hlist hnear ?_ ?_
  · rintro rfl
    exact hnp hk
  · rintro rfl
    rcases hf.atOrAbove_of_mem hmem hk with heq | hover
    · exact hnc heq
    · exact hnp hover

/-- The child that is replaced keeps the children that are not among the nodes. -/
theorem tree_replaced_child (hfit : f.AllFit p nodes) (hlt : ∀ k ∈ nodes, k < f.size) :
    (f.replaced p c before after nodes).tree c =
      .node c ((without (f.children c) nodes).map f.tree) := by
  have hpc : f.Ancestor p c := hf.ancestor_of_mem (by simp [hlist])
  have hne : c ≠ p := by
    rintro rfl
    exact hf.not_ancestor_self _ hpc
  rw [(hf.replaced hlist hfit hlt).tree_eq, children_replaced hf hlist, if_neg hne]
  congr 1
  refine List.map_congr_left fun d hd => ?_
  have hd := (mem_without.1 hd).1
  refine tree_replaced_of_not_over hf hlist hnear hfit hlt ?_ ?_
  · exact hf.not_atOrAbove_of_mem hd hpc.atOrAbove
  · rintro rfl
    exact hf.not_atOrAbove_of_mem hd (.refl f _) (.refl f _)

end

/-- Nodes from nearby that take the place of a tree stand there with their trees, and nothing else
changes. -/
theorem tree_replaced (hf : f.WellFormed)
    (h : f.tree root = plug branches (.node p (left ++ t :: right)))
    (hnear : ∀ m ∈ nodes, f.Near t.root m) (hfit : f.AllFit p nodes)
    (hlt : ∀ m ∈ nodes, m < f.size) :
    (f.replaced p t.root (left.map Tree.root) (right.map Tree.root) nodes).tree root =
      plug branches (.node p (left ++ (nodes.map (f.named t nodes) ++ right))) := by
  have hlist := children_of_plug hf h
  rw [List.map_append, List.map_cons] at hlist
  have ht : t.root ∈ f.children p := by simp [hlist]
  have hpt : f.Ancestor p t.root := hf.ancestor_of_mem ht
  have hrest := without_of_near hf hlist hnear
  have hg := hf.replaced hlist hfit hlt
  have hsame (n : NodeId) := tree_replaced_of_not_over (n := n) hf hlist hnear hfit hlt
  have hchild := tree_replaced_child hf hlist hnear hfit hlt
  have hchildren : (f.replaced p t.root (left.map Tree.root) (right.map Tree.root) nodes).children p
      = left.map Tree.root ++ nodes ++ right.map Tree.root := by
    rw [children_replaced hf hlist, if_pos rfl, hrest.1, hrest.2]
  have hother (k : NodeId) := children_replaced_of_near (d := k) hf hlist hnear
  generalize f.replaced p t.root (left.map Tree.root) (right.map Tree.root) nodes = g at *
  -- Around the parent and beside the child all stays; the nodes that came in stand as named.
  have hplugged : g.tree root = plug branches (g.tree p) := by
    refine tree_eq_plug hf hg h fun k hk hnot => hother k ?_ ?_
    · rintro rfl
      exact hnot (.refl f _)
    · rintro rfl
      exact hnot hpt.atOrAbove
  have hbeside {s : Tree} (hs : s ∈ left ++ right) : g.tree s.root = s := by
    obtain ⟨hmem, hne, hold⟩ := beside_of_plug hf h hs
    rw [hsame _ (hf.not_atOrAbove_of_mem hmem (.refl f p)) hne, hold]
  have hleft : (left.map Tree.root).map g.tree = left :=
    map_tree_of_forall fun s hs => hbeside (List.mem_append_left _ hs)
  have hright : (right.map Tree.root).map g.tree = right :=
    map_tree_of_forall fun s hs => hbeside (List.mem_append_right _ hs)
  have hold : t.children = (f.children t.root).map f.tree := by
    rw [← hf.children_tree, tree_of_mem_plug hf h (by simp)]
  have hnamed : nodes.map g.tree = nodes.map (f.named t nodes) := by
    refine List.map_congr_left fun m hm => ?_
    by_cases hmt : m = t.root
    · rw [hmt, hchild, named, if_pos rfl, hold, List.filter_map]
      rfl
    · rw [hsame m (hfit.fits m hm).not_over hmt, named_of_ne (fun s hs => ?_) hmt]
      rw [hold] at hs
      obtain ⟨d, -, rfl⟩ := List.mem_map.1 hs
      rfl
  rw [hplugged, hg.tree_eq, hchildren, List.append_assoc, List.map_append, List.map_append, hleft,
    hright, hnamed]

end Forest

end MarkdownTree
