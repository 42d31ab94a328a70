/-
No node is lost when two adjacent variables change places.

A node of `x` that depends on `y` gets two new children and lets go of its old ones.  What it lets go
of and nobody else refers to is a node of `y`, and the children of such a node have another parent.
So it is enough to look through the nodes of `y` for those to be reclaimed.

* `Diagram.Turning` — which nodes are as they were, which are rebuilt, and that each new one has a
  parent or is held by the work;
* `Turning.insert`, `Turning.rebuild` — a new node, and a node that is rebuilt;
* `Turning.referred` — in the end all nodes are referred to, except for some nodes of `y`;
* `Turning.child_referred` — the children of these have a parent that stays.
-/
import DecisionDiagram.Proofs.Reorder.Exchange

namespace DecisionDiagram.Diagram

variable {g₀ g : Diagram} {rank : Nat → Nat} {bound : Nat} {x y : Var} {T : NodeId → Prop}
  {held : List NodeId}

/-- The diagram `g` comes about from `g₀` while nodes of `x` that depend on `y` are rebuilt.  Those of
`T` are left, and the work holds on to the nodes of `held`. -/
structure Turning (g₀ g : Diagram) (x y : Var) (T : NodeId → Prop) (held : List NodeId) : Prop where
  left : ∀ {id}, T id → g₀.Depends x y id
  kept : ∀ {id n}, g₀ id = some n → (g₀.Depends x y id → T id) → g id = some n
  turned : ∀ {id n}, g₀ id = some n → g₀.Depends x y id → ¬ T id →
    ∃ m, g id = some m ∧ m.level = y ∧ ∀ b,
      Made x (g₀.cofactor y b n.low) (g₀.cofactor y b n.high) g (m.child b) ∧ ¬ T (m.child b)
  fresh : ∀ {id n}, g₀ id = none → g id = some n →
    id ∈ held ∨ ∃ p, g₀.Depends x y p ∧ ¬ T p ∧ g.Child p id

theorem Turning.refl (g : Diagram) : Turning g g x y (g.Depends x y) [] :=
  ⟨fun h => h, fun hn _ => hn, fun _ hD hT => absurd hD hT, fun hnone hn => by
    rw [hnone] at hn
    cases hn⟩

/-- The work holds on to one node more. -/
theorem Turning.hold (h : Turning g₀ g x y T held) (id : NodeId) :
    Turning g₀ g x y T (id :: held) :=
  ⟨h.left, h.kept, h.turned, fun hnone hn => (h.fresh hnone hn).imp_left (List.mem_cons_of_mem _)⟩

theorem Turning.insert (h : Turning g₀ g x y T held) {id : NodeId} (fresh : g id = none) (n : Node) :
    Turning g₀ (Function.update g id (some n)) x y T (id :: held) := by
  have keep : ∀ {j m}, g j = some m → Function.update g id (some n) j = some m :=
    update_of_fresh fresh
  refine ⟨h.left, fun hn hT => keep (h.kept hn hT), fun hn hD hT => ?_, fun hnone hn => ?_⟩
  · obtain ⟨m, hm, hy, hmade⟩ := h.turned hn hD hT
    refine ⟨m, keep hm, hy, fun b => ⟨?_, (hmade b).2⟩⟩
    have := (hmade b).1
    unfold Made at this ⊢
    split
    · rwa [if_pos ‹_›] at this
    · rw [if_neg ‹_›] at this
      exact keep this
  · rename_i j m
    by_cases hj : j = id
    · exact .inl (hj ▸ List.mem_cons_self)
    · rw [Function.update_of_ne hj] at hn
      rcases h.fresh hnone hn with hmem | ⟨p, hD, hT, n', b, hp, rfl⟩
      · exact .inl (List.mem_cons_of_mem _ hmem)
      · exact .inr ⟨p, hD, hT, n', b, keep hp, rfl⟩

/-- A child of a node that depends on `y` does not depend on `y` itself. -/
theorem Reduced.not_depends_child (h₀ : g₀.Reduced rank bound) {p : NodeId} {n : Node}
    (hn : g₀ p = some n) (hx : n.level = x) (b : Bool) : ¬ g₀.Depends x y (n.child b) := by
  rintro ⟨m, hm, hmx, -⟩
  have hle := (h₀.below hn b).le (h₀.inner hm) hm
  rw [hx, hmx] at hle
  lia

/-- The children of a node that is still to be rebuilt are as they were. -/
theorem Turning.cofactor_eq (h : Turning g₀ g x y T held) (h₀ : g₀.Reduced rank bound)
    (hinner : ∀ {id n}, g id = some n → id.isTerminal = false) {id : NodeId} {n : Node} (hid : T id)
    (hn : g id = some n) (b c : Bool) :
    g₀ id = some n ∧ g.cofactor y c (n.child b) = g₀.cofactor y c (n.child b) := by
  obtain ⟨n', hn', hx, -⟩ := h.left hid
  obtain rfl := Option.some.inj (hn.symm.trans (h.kept hn' fun _ => hid))
  refine ⟨hn', cofactor_congr ?_ c⟩
  have hlive := (h₀.below hn' b).live
  rcases hc : g₀ (n.child b) with _ | m
  · rw [Option.eq_none_iff_forall_ne_some]
    intro m hm
    rcases hlive with ht | hsome
    · rw [hinner hm] at ht
      cases ht
    · rw [hc] at hsome
      cases hsome
  · exact h.kept hc fun hD => absurd hD (h₀.not_depends_child hn' hx b)

theorem Turning.rebuild {low high id : NodeId} {n : Node} (h : Turning g₀ g x y T [high, low])
    (h₀ : g₀.Reduced rank bound) (hinner : ∀ {id n}, g id = some n → id.isTerminal = false)
    (hid : T id) (hn : g id = some n)
    (hlow : Made x (g.cofactor y false n.low) (g.cofactor y false n.high) g low)
    (hhigh : Made x (g.cofactor y true n.low) (g.cofactor y true n.high) g high)
    (hTlow : ¬ T low) (hThigh : ¬ T high) :
    Turning g₀ (Function.update g id (some ⟨y, low, high⟩)) x y (fun j => T j ∧ j ≠ id) [] := by
  have keep : ∀ {j}, j ≠ id → Function.update g id (some ⟨y, low, high⟩) j = g j := fun hj =>
    Function.update_of_ne hj _ _
  have ne_id : ∀ {j}, ¬ T j → j ≠ id := by
    rintro j hj rfl
    exact hj hid
  have made : ∀ {l r res}, Made x l r g res → ¬ T res →
      Made x l r (Function.update g id (some ⟨y, low, high⟩)) res := by
    intro l r res hm hT
    unfold Made at hm ⊢
    rwa [keep (ne_id hT)]
  have hcof := fun b c => h.cofactor_eq h₀ hinner hid hn b c
  have hn₀ : g₀ id = some n := (hcof false false).1
  refine ⟨fun hj => h.left hj.1, fun {j m} hj hT => ?_, fun {j m} hj hD hT => ?_,
    fun {j m} hnone hj => ?_⟩
  · have hji : j ≠ id := by
      rintro rfl
      exact (hT (h.left hid)).2 rfl
    rw [keep hji]
    exact h.kept hj fun hD => (hT hD).1
  · by_cases hji : j = id
    · subst hji
      obtain rfl := Option.some.inj (hj.symm.trans hn₀)
      refine ⟨_, Function.update_self _ _ _, rfl, fun b => ?_⟩
      have h₁ := (hcof false b).2
      have h₂ := (hcof true b).2
      simp only [Node.child_false, Node.child_true] at h₁ h₂
      rw [← h₁, ← h₂]
      cases b
      · exact ⟨made hlow hTlow, fun hc => hTlow hc.1⟩
      · exact ⟨made hhigh hThigh, fun hc => hThigh hc.1⟩
    · obtain ⟨m', hm', hy, hmade⟩ := h.turned hj hD fun hTj => hT ⟨hTj, hji⟩
      refine ⟨m', (keep hji).trans hm', hy, fun b => ?_⟩
      exact ⟨made (hmade b).1 (hmade b).2, fun hc => (hmade b).2 hc.1⟩
  · right
    have hji : j ≠ id := by
      rintro rfl
      rw [hn₀] at hnone
      cases hnone
    rw [keep hji] at hj
    rcases h.fresh hnone hj with hmem | ⟨p, hD, hT, hc⟩
    · -- The two nodes that were held are the children of the node that is rebuilt.
      refine ⟨id, h.left hid, fun hc => hc.2 rfl, ⟨y, low, high⟩, decide (j = high),
        Function.update_self _ _ _, ?_⟩
      by_cases hjh : j = high
      · rw [decide_eq_true hjh]
        exact hjh
      · rw [decide_eq_false hjh]
        exact List.mem_singleton.mp ((List.mem_cons.mp hmem).resolve_left hjh)
    · obtain ⟨n', b, hp, hjb⟩ := hc
      exact ⟨p, hD, fun hc => hT hc.1, n', b, (keep (ne_id hT)).trans hp, hjb⟩

/-- On the way no new node is one of `y`. -/
theorem Turning.old_of_lower (h : Turning g₀ g x y T held) (ha : g.Amid rank bound x y T)
    (hheld : ∀ j ∈ held, g.Under rank (rank x) j) {id : NodeId} {n : Node} (hn : g id = some n)
    (hy : n.level = y) : ∃ n₀, g₀ id = some n₀ := by
  have hadj := ha.adjacent
  by_contra hold
  have hnone : g₀ id = none := by
    rw [Option.eq_none_iff_forall_ne_some]
    exact fun n₀ hn₀ => hold ⟨n₀, hn₀⟩
  -- What is held stands at `x` or below, and so do the children of a node that was rebuilt.
  have hunder : g.Under rank (rank y + 1) id := by
    rcases h.fresh hnone hn with hmem | ⟨p, hD, hT, np, b, hp, rfl⟩
    · exact hadj ▸ hheld id hmem
    · have ⟨m₀, hm₀, _⟩ := hD
      obtain ⟨m, hm, hmy, -⟩ := h.turned hm₀ hD hT
      obtain rfl := Option.some.inj (hp.symm.trans hm)
      exact hmy ▸ ha.rebuilt hp hT b
  have hle := hunder.le (ha.inner hn) hn
  rw [hy] at hle
  lia

/-! ### When all nodes are rebuilt -/

section Referred

variable (h : Turning g₀ g x y (fun _ => False) [])
include h

/-- The cofactors of the children of a rebuilt node have that node for a parent, or a node of `x`. -/
theorem Turning.cofactor_child {q : NodeId} {n : Node} (hq : g₀ q = some n)
    (hD : g₀.Depends x y q) (b c : Bool) :
    ∃ p, g.Child p (g₀.cofactor y c (n.child b)) ∧
      (p = q ∨ ∃ m, g p = some m ∧ m.level = x) := by
  obtain ⟨m, hm, -, hmade⟩ := h.turned hq hD not_false
  have hchild := (hmade c).1
  unfold Made at hchild
  split at hchild
  · rename_i heq
    refine ⟨q, ⟨m, c, hm, ?_⟩, .inl rfl⟩
    cases b
    · exact hchild.symm
    · exact heq.symm.trans hchild.symm
  · refine ⟨m.child c, ⟨_, b, hchild, ?_⟩, .inr ⟨_, hchild, rfl⟩⟩
    cases b <;> rfl

variable (h₀ : g₀.Reduced rank bound) {P : NodeId → Prop}
  (href : ∀ {id}, (g₀ id).isSome = true → P id ∨ ∃ p, g₀.Child p id)
include h₀ href

/-- A node that was rebuilt is referred to as before. -/
theorem Turning.rebuilt_referred {q : NodeId} (hD : g₀.Depends x y q) :
    P q ∨ ∃ p, g.Child p q := by
  obtain ⟨n, hn, hx, -⟩ := hD
  refine (href (by rw [hn]; rfl)).imp_right ?_
  rintro ⟨p, np, b, hp, rfl⟩
  refine ⟨p, np, b, h.kept hp ?_, rfl⟩
  rintro ⟨np', hp', hpx, -⟩
  obtain rfl := Option.some.inj (hp.symm.trans hp')
  have hle := (h₀.below hp b).le (h₀.inner hn) hn
  rw [hx, hpx] at hle
  lia

theorem Turning.referred {id : NodeId} {n : Node} (hn : g id = some n) (hy : n.level ≠ y) :
    P id ∨ ∃ p, g.Child p id := by
  rcases hold : g₀ id with _ | n₀
  · obtain ⟨p, -, -, hc⟩ := (h.fresh hold hn).resolve_left (List.not_mem_nil)
    exact .inr ⟨p, hc⟩
  by_cases hD : g₀.Depends x y id
  · exact h.rebuilt_referred h₀ href hD
  obtain rfl := Option.some.inj (hn.symm.trans (h.kept hold fun hc => absurd hc hD))
  refine (href (by rw [hold]; rfl)).imp_right ?_
  rintro ⟨p, np, b, hp, rfl⟩
  by_cases hDp : g₀.Depends x y p
  · -- The node is its own cofactor.
    obtain ⟨q, hq, -⟩ := h.cofactor_child hp hDp b false
    rcases cofactor_cases g₀ y false (np.child b) with heq | ⟨m, hm, hmy, -⟩
    · rw [heq] at hq
      exact ⟨q, hq⟩
    · obtain rfl := Option.some.inj (hold.symm.trans hm)
      exact absurd hmy hy
  · exact ⟨p, np, b, h.kept hp fun hc => absurd hc hDp, rfl⟩

theorem Turning.child_referred {id : NodeId} {n : Node} (hn : g id = some n) (hy : n.level = y)
    (hP : ¬ P id) (hid : ∀ p, ¬ g.Child p id) (b : Bool) :
    ∃ p, g.Child p (n.child b) ∧
      ∀ m, g p = some m → m.level = y → P p ∨ ∃ q, g.Child q p := by
  rcases hold : g₀ id with _ | n₀
  · obtain ⟨p, -, -, hc⟩ := (h.fresh hold hn).resolve_left (List.not_mem_nil)
    exact absurd hc (hid p)
  have hD : ¬ g₀.Depends x y id := fun hD =>
    (h.rebuilt_referred h₀ href hD).elim hP fun ⟨p, hp⟩ => hid p hp
  obtain rfl := Option.some.inj (hn.symm.trans (h.kept hold fun hc => absurd hc hD))
  obtain ⟨q, nq, c, hq, rfl⟩ := (href (by rw [hold]; rfl)).resolve_left hP
  have hDq : g₀.Depends x y q := by
    by_contra hDq
    exact hid q ⟨nq, c, h.kept hq fun hc => absurd hc hDq, rfl⟩
  have hcof : g₀.cofactor y b (nq.child c) = n.child b := cofactor_of_level hold hy b
  obtain ⟨p, hp, hpq⟩ := h.cofactor_child hq hDq c b
  rw [hcof] at hp
  refine ⟨p, hp, fun m hm hmy => ?_⟩
  rcases hpq with rfl | ⟨m', hm', hmx⟩
  · exact h.rebuilt_referred h₀ href hDq
  · -- No node is one of `x` and one of `y`.
    obtain rfl := Option.some.inj (hm.symm.trans hm')
    obtain ⟨nq', hq', hx, -⟩ := hDq
    obtain rfl := Option.some.inj (hq.symm.trans hq')
    have hle := (h₀.below hq c).le (h₀.inner hold) hold
    rw [hx, hy, ← hmx, hmy] at hle
    lia

end Referred

end DecisionDiagram.Diagram
