/-
The tree that a node of a diagram unfolds to.

* `Diagram.Unfolds`, `Diagram.tree` — the tree of a node, with the levels for labels;
* `Diagram.Reduced.tree_injective` — different nodes have different trees;
* `Diagram.Reduced.tree_proper` — trees of nodes are reduced and ordered;
* `Diagram.Made.tree` — the node with a record has the tree with this level and the trees of the two
  children for branches.
-/
import DecisionDiagram.Proofs.Diagram
import DecisionDiagram.Proofs.Tree

namespace DecisionDiagram

instance : Inhabited Tree := ⟨.leaf false⟩

namespace Diagram

variable {g g' : Diagram} {bound bound' : Nat} {S : NodeId → Prop} {i j f : NodeId} {k : Level}
  {t u : Tree}

/-- The node unfolds to the tree. -/
inductive Unfolds (g : Diagram) : NodeId → Tree → Prop
  | terminal {id : NodeId} (ht : id.isTerminal = true) : Unfolds g id (.leaf id.isTop)
  | node {id : NodeId} {n : Node} {l h : Tree} (hn : g id = some n) (hl : Unfolds g n.low l)
    (hh : Unfolds g n.high h) : Unfolds g id (.node n.level l h)

/-- The tree of a node. -/
noncomputable def tree (g : Diagram) (id : NodeId) : Tree := Classical.epsilon (g.Unfolds id)

/-! ### Unfolding -/

theorem Unfolds.eq_leaf (hg : ∀ {id n}, g id = some n → id.isTerminal = false)
    (h : g.Unfolds f t) (ht : f.isTerminal = true) : t = .leaf f.isTop := by
  cases h with
  | terminal => rfl
  | node hn _ _ =>
    rw [hg hn] at ht
    cases ht

theorem Unfolds.unique (hg : ∀ {id n}, g id = some n → id.isTerminal = false)
    (ht : g.Unfolds f t) (hu : g.Unfolds f u) : t = u := by
  induction ht generalizing u with
  | terminal ht => exact (hu.eq_leaf hg ht).symm
  | node hn _ _ ihl ihh =>
    cases hu with
    | terminal hu =>
      rw [hg hn] at hu
      cases hu
    | node hn' hl' hh' =>
      obtain rfl := Option.some.inj (hn.symm.trans hn')
      rw [ihl hl', ihh hh']

/-- A tree depends on the records below the node only. -/
theorem Unfolds.congr (hS : g.Closed S) (agree : ∀ id, S id → g' id = g id) (hf : S f)
    (h : g.Unfolds f t) : g'.Unfolds f t := by
  induction h with
  | terminal ht => exact .terminal ht
  | node hn _ _ ihl ihh =>
    exact .node ((agree _ hf).trans hn) (ihl (hS hf ⟨_, false, hn, rfl⟩))
      (ihh (hS hf ⟨_, true, hn, rfl⟩))

/-- The values of a node are those of its tree. -/
theorem Unfolds.eval (h : g.Unfolds f t) (val : Level → Bool) : g.Eval val f (t.eval val) := by
  induction h with
  | terminal ht => exact eval_terminal ht
  | @node id n l h hn _ _ ihl ihh =>
    refine .node hn ?_
    rw [Tree.eval_node]
    cases val n.level
    · exact ihl
    · exact ihh

section Reduced

variable (hg : g.Reduced id bound)
include hg

/-- Every live node has a tree. The induction is on the distance from the lowest level. -/
theorem Reduced.exists_unfolds (hf : g.Live f) : ∃ t, g.Unfolds f t := by
  have key : ∀ d f, g.Under id (bound - d) f → ∃ t, g.Unfolds f t := by
    intro d
    induction d with
    | zero =>
      intro f hf
      rcases hf with ht | ⟨n, hn, hk⟩
      · exact ⟨_, .terminal ht⟩
      · have := hg.label_lt hn
        simp only [id] at hk
        lia
    | succ d ih =>
      intro f hf
      rcases hf with ht | ⟨n, hn, hk⟩
      · exact ⟨_, .terminal ht⟩
      · simp only [id] at hk
        have side := fun b => ih _ ((hg.below hn b).mono (l := bound - d) (by simp only [id]; lia))
        obtain ⟨l, hl⟩ := side false
        obtain ⟨h, hh⟩ := side true
        exact ⟨_, .node hn hl hh⟩
  exact key bound f (hf.under.mono (by lia))

theorem Reduced.unfolds (hf : g.Live f) : g.Unfolds f (g.tree f) :=
  Classical.epsilon_spec (hg.exists_unfolds hf)

theorem Reduced.tree_eq (h : g.Unfolds f t) : g.tree f = t :=
  Unfolds.unique hg.inner (Classical.epsilon_spec ⟨t, h⟩) h

theorem Reduced.tree_terminal (ht : f.isTerminal = true) : g.tree f = .leaf f.isTop :=
  hg.tree_eq (.terminal ht)

theorem Reduced.tree_bot : g.tree NodeId.bot = .leaf false := hg.tree_terminal rfl

theorem Reduced.tree_top : g.tree NodeId.top = .leaf true := hg.tree_terminal rfl

theorem Reduced.tree_node {n : Node} (hn : g f = some n) :
    g.tree f = .node n.level (g.tree n.low) (g.tree n.high) :=
  hg.tree_eq (.node hn (hg.unfolds (hg.below hn false).live) (hg.unfolds (hg.below hn true).live))

theorem Reduced.tree_congr (hg' : g'.Reduced id bound') (hS : g.Closed S)
    (agree : ∀ id, S id → g' id = g id) (hf : S f) (hlive : g.Live f) : g'.tree f = g.tree f :=
  hg'.tree_eq ((hg.unfolds hlive).congr hS agree hf)

theorem Reduced.eval_iff (hf : g.Live f) {val : Level → Bool} {b : Bool} :
    g.Eval val f b ↔ (g.tree f).eval val = b := by
  have h := (hg.unfolds hf).eval val
  exact ⟨fun hb => h.unique hg.inner hb, fun hb => hb ▸ h⟩

/-- Nodes with the same tree are the same node, since no record occurs twice. -/
theorem Reduced.eq_of_unfolds (hi : g.Unfolds i t) (hj : g.Unfolds j t) : i = j := by
  induction hi generalizing j with
  | @terminal i ht =>
    generalize hu : Tree.leaf i.isTop = u at hj
    cases hj with
    | terminal ht' =>
      have htop : i.isTop = j.isTop := Tree.leaf.inj hu
      rcases NodeId.eq_bot_or_eq_top ht with rfl | rfl <;>
        rcases NodeId.eq_bot_or_eq_top ht' with rfl | rfl <;> first | rfl | cases htop
    | node => cases hu
  | @node i n l h hn _ _ ihl ihh =>
    generalize hu : Tree.node n.level l h = u at hj
    cases hj with
    | terminal => cases hu
    | @node _ n' l' h' hn' hl' hh' =>
      obtain ⟨hlevel, rfl, rfl⟩ := Tree.node.inj hu
      have hlow := ihl hl'
      have hhigh := ihh hh'
      have hrec : n = n' := by
        cases n
        cases n'
        simp only at hlevel hlow hhigh
        rw [hlevel, hlow, hhigh]
      exact hg.unique hn (hrec ▸ hn')

theorem Reduced.tree_injective (hi : g.Live i) (hj : g.Live j) (h : g.tree i = g.tree j) : i = j :=
  hg.eq_of_unfolds (hg.unfolds hi) (h ▸ hg.unfolds hj)

/-- The tree of a node is reduced and ordered. -/
theorem Reduced.tree_proper (hf : g.Under id k f) : (g.tree f).Proper k := by
  have h := hg.unfolds hf.live
  generalize g.tree f = t at h
  induction h generalizing k with
  | terminal => exact .leaf _ _
  | node hn hl hh ihl ihh =>
    refine .node (hf.le (hg.inner hn) hn) (fun heq => ?_) (ihl (hg.below hn false))
      (ihh (hg.below hn true))
    subst heq
    exact hg.low_ne_high hn (hg.eq_of_unfolds hl hh)

theorem Reduced.under_of_proper (hf : g.Live f) (hp : (g.tree f).Proper k) : g.Under id k f := by
  by_cases ht : f.isTerminal = true
  · exact .inl ht
  · obtain ⟨n, hn⟩ := hf.eq_some (Bool.eq_false_iff.mpr ht)
    rw [hg.tree_node hn] at hp
    cases hp with
    | node le _ _ _ => exact .inr ⟨n, hn, le⟩

theorem Reduced.tree_eq_leaf (hf : g.Live f) {b : Bool} (h : g.tree f = .leaf b) :
    f = NodeId.ofBool b := by
  refine hg.tree_injective hf ?_ (h.trans ?_)
  · exact .inl (by cases b <;> rfl)
  · cases b
    · exact hg.tree_bot.symm
    · exact hg.tree_top.symm

/-- The node with a record has the tree that is made from those of its children. -/
theorem Made.tree {level : Level} {l h res : NodeId} (hm : Made level l h g res) (hl : g.Live l)
    (hh : g.Live h) : g.tree res = Tree.make level (g.tree l) (g.tree h) := by
  unfold Made at hm
  split at hm
  · rename_i heq
    rw [hm, heq, Tree.make, if_pos rfl]
  · rename_i hne
    rw [hg.tree_node hm, Tree.make, if_neg fun heq => hne (hg.tree_injective hl hh heq)]

end Reduced

end Diagram

end DecisionDiagram
