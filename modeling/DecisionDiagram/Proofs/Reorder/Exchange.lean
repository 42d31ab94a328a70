/-
Diagrams while two adjacent variables change places.

The variable `x` stands right above `y`, and will stand right below.  A node of `x` with a child of
`y` breaks the new order; it gets a new record, which decides `y` first and then `x`.  All other
nodes respect both orders.

* `Diagram.Amid` — the invariant on the way: what holds of the nodes that were rebuilt or need not
  be, and of the set `T` of nodes still to be rebuilt;
* `Reduced.amid`, `Amid.reduced` — how the way starts and ends;
* `Amid.insert` — a new node of `x` keeps the invariant;
* `Amid.rebuild`, `Amid.eval_rebuild` — a node that is rebuilt leaves `T` and keeps its values;
* `Diagram.Cliques` — which labels meet below a node; a rebuilt node meets none that it did not
  meet before.
-/
import DecisionDiagram.Proofs.Diagram

namespace DecisionDiagram.Diagram

variable {g g' : Diagram} {rank rank' : Nat → Nat} {bound : Nat} {x y : Var}
  {T : NodeId → Prop} {R : Var → Var → Prop}

/-! ### Labels that meet -/

/-- The label `v` occurs at or below a node. -/
inductive Meets (g : Diagram) (v : Var) : NodeId → Prop
  | here {id : NodeId} {n : Node} (hn : g id = some n) (hv : n.level = v) : Meets g v id
  | child {id : NodeId} {n : Node} (b : Bool) (hn : g id = some n) (h : Meets g v (n.child b)) :
    Meets g v id

/-- Labels that occur below one node are related. -/
def Cliques (g : Diagram) (R : Var → Var → Prop) : Prop :=
  ∀ id v w, g.Meets v id → g.Meets w id → R v w

/-- What is met in one diagram is met in another, if every step down has its counterpart. -/
theorem Meets.transfer {σ : NodeId → NodeId}
    (here : ∀ {id n}, g' id = some n → g.Meets n.level (σ id))
    (below : ∀ {id n}, g' id = some n → ∀ b v, g.Meets v (σ (n.child b)) → g.Meets v (σ id))
    {v : Var} {id : NodeId} (h : g'.Meets v id) : g.Meets v (σ id) := by
  induction h with
  | here hn hv =>
    subst hv
    exact here hn
  | child b hn _ ih => exact below hn b _ ih

theorem Meets.lt (h : g.Reduced rank bound) {v : Var} {id : NodeId} (hv : g.Meets v id) :
    v < bound := by
  induction hv with
  | here hn hv =>
    subst hv
    exact h.label_lt hn
  | child _ _ _ ih => exact ih

theorem Cliques.transfer (h : g.Cliques R) {σ : NodeId → NodeId}
    (here : ∀ {id n}, g' id = some n → g.Meets n.level (σ id))
    (below : ∀ {id n}, g' id = some n → ∀ b v, g.Meets v (σ (n.child b)) → g.Meets v (σ id)) :
    g'.Cliques R := fun _ _ _ hv hw => h _ _ _ (hv.transfer here below) (hw.transfer here below)

/-- Fewer nodes meet fewer labels. -/
theorem Cliques.of_subset (h : g.Cliques R) (hsub : ∀ {id n}, g' id = some n → g id = some n) :
    g'.Cliques R :=
  h.transfer (σ := fun id => id) (fun hn => .here (hsub hn) rfl)
    (fun hn b _ hv => .child b (hsub hn) hv)

/-! ### Cofactors -/

/-- The cofactor of a node on one side of `y`; only a node that decides `y` has one of its own. -/
def cofactor (g : Diagram) (y : Var) (b : Bool) (id : NodeId) : NodeId :=
  (g id).elim id fun n => n.cofactor id y b

theorem cofactor_of_level {id : NodeId} {n : Node} (hn : g id = some n) (hy : n.level = y)
    (b : Bool) : g.cofactor y b id = n.child b := by
  rw [cofactor, hn]
  exact if_pos hy

theorem cofactor_cases (g : Diagram) (y : Var) (b : Bool) (id : NodeId) :
    g.cofactor y b id = id ∨ ∃ n, g id = some n ∧ n.level = y ∧ g.cofactor y b id = n.child b := by
  rcases hg : g id with _ | n
  · left
    rw [cofactor, hg]
    rfl
  · by_cases hy : n.level = y
    · exact .inr ⟨n, rfl, hy, cofactor_of_level hg hy b⟩
    · left
      rw [cofactor, hg]
      exact if_neg hy

theorem cofactor_congr {id : NodeId} (h : g' id = g id) (b : Bool) :
    g'.cofactor y b id = g.cofactor y b id := by
  rw [cofactor, cofactor, h]

theorem Eval.cofactor (hg : ∀ {id n}, g id = some n → id.isTerminal = false) {val : Nat → Bool}
    {id : NodeId} {b : Bool} (h : g.Eval val id b) (y : Var) :
    g.Eval val (g.cofactor y (val y) id) b := by
  rcases cofactor_cases g y (val y) id with heq | ⟨n, hn, rfl, heq⟩
  · rw [heq]
    exact h
  · rw [heq]
    exact h.child hg hn

theorem meets_of_cofactor {v : Var} {b : Bool} {id : NodeId}
    (h : g.Meets v (g.cofactor y b id)) : g.Meets v id := by
  rcases cofactor_cases g y b id with heq | ⟨n, hn, -, heq⟩
  · rw [heq] at h
    exact h
  · rw [heq] at h
    exact .child b hn h

/-- What a made node meets is its label or met by one of the two given nodes. -/
theorem Made.meets {l r res : NodeId} (hm : Made x l r g res) {v : Var} (h : g.Meets v res) :
    v = x ∨ g.Meets v l ∨ g.Meets v r := by
  unfold Made at hm
  split at hm
  · rw [hm] at h
    exact .inr (.inl h)
  · cases h with
    | here hn hv =>
      obtain rfl := Option.some.inj (hm.symm.trans hn)
      exact .inl hv.symm
    | child b hn h =>
      obtain rfl := Option.some.inj (hm.symm.trans hn)
      cases b
      · exact .inr (.inl h)
      · exact .inr (.inr h)

/-! ### The two orders -/

/-- In the second order `x` and `y` have changed places, which are adjacent. -/
structure Exchanged (rank rank' : Nat → Nat) (bound : Nat) (x y : Var) : Prop where
  upper_lt : x < bound
  lower_lt : y < bound
  lower : rank y = rank x + 1
  upper' : rank' y = rank x
  lower' : rank' x = rank x + 1
  other : ∀ {v}, v ≠ x → v ≠ y → rank' v = rank v
  injective : ∀ {v w}, v < bound → w < bound → rank v = rank w → v = w

section Exchanged

variable (ex : Exchanged rank rank' bound x y)
include ex

theorem Exchanged.le_rank' {v : Var} {k : Nat} (hk : k ≤ rank x) (h : k ≤ rank v) :
    k ≤ rank' v := by
  by_cases hx : v = x
  · rw [hx, ex.lower']
    lia
  · by_cases hy : v = y
    · rw [hy, ex.upper']
      exact hk
    · rw [ex.other hx hy]
      exact h

theorem Exchanged.rank'_eq_of_le {v : Var} (h : rank x + 2 ≤ rank v) : rank' v = rank v := by
  have hlower := ex.lower
  refine ex.other ?_ ?_
  · rintro rfl
    lia
  · rintro rfl
    lia

/-- Above the two levels, and below them, nothing changes. -/
theorem Under.exchange_above {k : Nat} {id : NodeId} (h : g.Under rank k id) (hk : k ≤ rank x) :
    g.Under rank' k id := by
  rcases h with h | ⟨n, hn, hle⟩
  · exact .inl h
  · exact .inr ⟨n, hn, ex.le_rank' hk hle⟩

theorem Under.exchange_below {id : NodeId} (h : g.Under rank (rank x + 2) id) :
    g.Under rank' (rank x + 2) id := by
  rcases h with h | ⟨n, hn, hle⟩
  · exact .inl h
  · exact .inr ⟨n, hn, by rw [ex.rank'_eq_of_le hle]; exact hle⟩

end Exchanged

/-! ### Between the two orders -/

/-- A node of `x` with a child of `y`. -/
def Depends (g : Diagram) (x y : Var) (id : NodeId) : Prop :=
  ∃ n, g id = some n ∧ n.level = x ∧ ∃ b m, g (n.child b) = some m ∧ m.level = y

/-- A diagram on its way to the order `rank`, in which `x` stands right below `y`.  The nodes of `T`
are still to be rebuilt. -/
structure Amid (g : Diagram) (rank : Nat → Nat) (bound : Nat) (x y : Var) (T : NodeId → Prop) :
    Prop where
  inner : ∀ {id n}, g id = some n → id.isTerminal = false
  label_lt : ∀ {id n}, g id = some n → n.level < bound
  low_ne_high : ∀ {id n}, g id = some n → n.low ≠ n.high
  unique : ∀ {i j n}, g i = some n → g j = some n → i = j
  rebuilt : ∀ {id n}, g id = some n → ¬ T id → ∀ b, g.Under rank (rank n.level + 1) (n.child b)
  depends : ∀ {id}, T id → g.Depends x y id
  grand : ∀ {id n}, T id → g id = some n → ∀ b c,
    g.Under rank (rank x + 1) (g.cofactor y c (n.child b))
  parent : ∀ {p n b}, g p = some n → T (n.child b) → rank n.level < rank y
  upper_lt : x < bound
  lower_lt : y < bound
  adjacent : rank x = rank y + 1

theorem Reduced.amid (h : g.Reduced rank bound) (ex : Exchanged rank rank' bound x y) :
    g.Amid rank' bound x y (g.Depends x y) := by
  have hlower := ex.lower
  -- A child of a node of `x` stands below both levels, unless it is a node of `y`.
  have far : ∀ {id n b}, g id = some n → n.level = x →
      (∀ m, g (n.child b) = some m → m.level ≠ y) → g.Under rank (rank x + 2) (n.child b) := by
    intro id n b hn hx hy
    rcases h.below hn b with ht | ⟨m, hm, hle⟩
    · exact .inl ht
    · rw [hx] at hle
      have hne : rank m.level ≠ rank y := fun heq =>
        hy m hm (ex.injective (h.label_lt hm) ex.lower_lt heq)
      exact .inr ⟨m, hm, by lia⟩
  refine ⟨h.inner, h.label_lt, h.low_ne_high, h.unique, ?_, fun hT => hT, ?_, ?_, ex.upper_lt,
    ex.lower_lt, by rw [ex.lower', ex.upper']⟩
  · intro id n hn hT b
    by_cases hx : n.level = x
    · rw [hx, ex.lower']
      refine (far hn hx fun m hm hy => ?_).exchange_below ex
      exact hT ⟨n, hn, hx, b, m, hm, hy⟩
    · by_cases hy : n.level = y
      · rw [hy, ex.upper']
        have hb := h.below hn b
        rw [hy, hlower] at hb
        exact (hb.exchange_below ex).mono (by lia)
      · rw [ex.other hx hy]
        have hb := h.below hn b
        have hnx : rank n.level ≠ rank x := fun heq =>
          hx (ex.injective (h.label_lt hn) ex.upper_lt heq)
        rcases Nat.lt_or_ge (rank n.level) (rank x) with hlt | hge
        · exact hb.exchange_above ex hlt
        · have hny : rank n.level ≠ rank y := fun heq =>
            hy (ex.injective (h.label_lt hn) ex.lower_lt heq)
          rcases hb with ht | ⟨m, hm, hle⟩
          · exact .inl ht
          · exact .inr ⟨m, hm, by rw [ex.rank'_eq_of_le (by lia)]; exact hle⟩
  · rintro id n ⟨n', hn', hx, -⟩ hn b c
    obtain rfl := Option.some.inj (hn.symm.trans hn')
    rw [ex.lower']
    refine Under.exchange_below ex ?_
    rcases hc : g (n.child b) with _ | m
    · rw [cofactor, hc]
      exact far hn hx fun m hm => by rw [hc] at hm; cases hm
    · by_cases hy : m.level = y
      · rw [cofactor_of_level hc hy]
        have hb := h.below hc c
        rwa [hy, hlower] at hb
      · rw [cofactor, hc]
        show g.Under rank (rank x + 2) (if m.level = y then m.child c else n.child b)
        rw [if_neg hy]
        refine far hn hx fun m' hm' => ?_
        obtain rfl := Option.some.inj (hc.symm.trans hm')
        exact hy
  · rintro p n b hn ⟨n', hn', hx, -⟩
    rw [ex.upper']
    have hle := (h.below hn b).le (h.inner hn') hn'
    rw [hx] at hle
    have hnx : n.level ≠ x := by
      rintro heq
      rw [heq] at hle
      lia
    have hny : n.level ≠ y := by
      rintro heq
      rw [heq] at hle
      lia
    rw [ex.other hnx hny]
    lia

theorem Amid.reduced (h : g.Amid rank bound x y T) (hT : ∀ id, ¬ T id) : g.Reduced rank bound :=
  ⟨h.inner, h.label_lt, h.low_ne_high, fun hn b => h.rebuilt hn (hT _) b, h.unique⟩

section Amid

variable (h : g.Amid rank bound x y T)
include h

theorem Amid.ne : x ≠ y := by
  rintro rfl
  have := h.adjacent
  lia

theorem Amid.level_eq {id : NodeId} {n : Node} (hid : T id) (hn : g id = some n) : n.level = x := by
  obtain ⟨m, hm, hx, -⟩ := h.depends hid
  obtain rfl := Option.some.inj (hn.symm.trans hm)
  exact hx

/-- The set holds no node below the upper of the two levels. -/
theorem Amid.not_mem_of_under {id : NodeId} (hid : g.Under rank (rank x + 1) id) : ¬ T id := by
  intro hT
  obtain ⟨n, hn, hx, -⟩ := h.depends hT
  have := hid.le (h.inner hn) hn
  rw [hx] at this
  lia

/-- A child of a node of the set is not in the set. -/
theorem Amid.not_mem_child {id : NodeId} {n : Node} (hid : T id) (hn : g id = some n) (b : Bool) :
    ¬ T (n.child b) := by
  intro hT
  have hlt := h.parent hn hT
  have hadj := h.adjacent
  rw [h.level_eq hid hn] at hlt
  lia

theorem Amid.child_live {p c : NodeId} (hc : g.Child p c) : g.Live c := by
  obtain ⟨n, b, hn, rfl⟩ := hc
  by_cases hT : T p
  · rcases cofactor_cases g y false (n.child b) with heq | ⟨m, hm, -, -⟩
    · have hg := h.grand hT hn b false
      rw [heq] at hg
      exact hg.live
    · exact live_of_eq_some hm
  · exact (h.rebuilt hn hT b).live

/-! ### A new node -/

theorem Amid.insert {id l r : NodeId} (hid : id.isTerminal = false) (fresh : g id = none)
    (hne : l ≠ r) (hl : g.Under rank (rank x + 1) l) (hr : g.Under rank (rank x + 1) r)
    (new : ∀ j, ¬ T j → g j ≠ some ⟨x, l, r⟩) :
    Amid (Function.update g id (some ⟨x, l, r⟩)) rank bound x y T := by
  have hadj := h.adjacent
  have old : ∀ {j m}, g j = some m → Function.update g id (some ⟨x, l, r⟩) j = some m :=
    update_of_fresh fresh
  have keep : ∀ {k j}, g.Under rank k j →
      Under (Function.update g id (some ⟨x, l, r⟩)) rank k j := fun hj => hj.congr old
  have hTid : ¬ T id := by
    intro hT
    obtain ⟨n, hn, -⟩ := h.depends hT
    rw [fresh] at hn
    cases hn
  -- A node of the set has a child of `y`, which the new node has not.
  have new' : ∀ j, g j ≠ some ⟨x, l, r⟩ := by
    intro j hj
    by_cases hT : T j
    · obtain ⟨n, hn, -, b, m, hm, hy⟩ := h.depends hT
      obtain rfl := Option.some.inj (hj.symm.trans hn)
      have hle : rank x + 1 ≤ rank m.level := by
        cases b
        · exact hl.le (h.inner hm) hm
        · exact hr.le (h.inner hm) hm
      rw [hy] at hle
      lia
    · exact new j hT hj
  refine ⟨?_, ?_, ?_, ?_, ?_, ?_, ?_, ?_, h.upper_lt, h.lower_lt, h.adjacent⟩
  · intro j m hm
    rcases update_eq_some.mp hm with ⟨rfl, -⟩ | ⟨-, hm⟩
    · exact hid
    · exact h.inner hm
  · intro j m hm
    rcases update_eq_some.mp hm with ⟨-, rfl⟩ | ⟨-, hm⟩
    · exact h.upper_lt
    · exact h.label_lt hm
  · intro j m hm
    rcases update_eq_some.mp hm with ⟨-, rfl⟩ | ⟨-, hm⟩
    · exact hne
    · exact h.low_ne_high hm
  · intro i j m hi hj
    rcases update_eq_some.mp hi with ⟨hii, rfl⟩ | ⟨-, hi⟩
    · rcases update_eq_some.mp hj with ⟨hjj, -⟩ | ⟨-, hj⟩
      · rw [hii, hjj]
      · exact absurd hj (new' j)
    · rcases update_eq_some.mp hj with ⟨-, rfl⟩ | ⟨-, hj⟩
      · exact absurd hi (new' i)
      · exact h.unique hi hj
  · intro j m hm hT b
    rcases update_eq_some.mp hm with ⟨-, rfl⟩ | ⟨-, hm⟩
    · cases b
      · exact keep hl
      · exact keep hr
    · exact keep (h.rebuilt hm hT b)
  · intro j hT
    obtain ⟨n, hn, hx, b, m, hm, hy⟩ := h.depends hT
    exact ⟨n, old hn, hx, b, m, old hm, hy⟩
  · intro j m hT hm b c
    rcases update_eq_some.mp hm with ⟨rfl, -⟩ | ⟨-, hm⟩
    · exact absurd hT hTid
    · have hne : m.child b ≠ id := (h.child_live ⟨m, b, hm, rfl⟩).ne_of_fresh hid fresh
      rw [cofactor_congr (Function.update_of_ne hne _ _)]
      exact keep (h.grand hT hm b c)
  · intro p m b hm hT
    rcases update_eq_some.mp hm with ⟨-, rfl⟩ | ⟨-, hm⟩
    · cases b
      · exact absurd hT (h.not_mem_of_under hl)
      · exact absurd hT (h.not_mem_of_under hr)
    · exact h.parent hm hT

/-- The labels below the new node are met below some node already. -/
theorem Amid.cliques_insert (hR : g.Cliques R) {id l r old : NodeId} (fresh : g id = none)
    (hid : id.isTerminal = false) (hold : ∀ v, v = x ∨ g.Meets v l ∨ g.Meets v r → g.Meets v old)
    (hl : g.Live l) (hr : g.Live r) :
    Cliques (Function.update g id (some ⟨x, l, r⟩)) R := by
  have hne : ∀ {c}, g.Live c → c ≠ id := fun hc => hc.ne_of_fresh hid fresh
  refine hR.transfer (σ := fun j => if j = id then old else j) ?_ ?_
  · intro j m hm
    rcases update_eq_some.mp hm with ⟨rfl, rfl⟩ | ⟨hj, hm⟩
    · rw [if_pos rfl]
      exact hold x (.inl rfl)
    · rw [if_neg hj]
      exact .here hm rfl
  · intro j m hm b v hv
    rcases update_eq_some.mp hm with ⟨rfl, rfl⟩ | ⟨hj, hm⟩
    · rw [if_pos rfl]
      cases b
      · rw [Node.child_false, if_neg (hne hl)] at hv
        exact hold v (.inr (.inl hv))
      · rw [Node.child_true, if_neg (hne hr)] at hv
        exact hold v (.inr (.inr hv))
    · rw [if_neg hj]
      rw [if_neg (hne (h.child_live ⟨m, b, hm, rfl⟩))] at hv
      exact .child b hm hv

/-! ### A node with another record -/

theorem Amid.inner_rebuild {id : NodeId} {n n' : Node} (hn : g id = some n) {j : NodeId} {m : Node}
    (hm : Function.update g id (some n') j = some m) : j.isTerminal = false := by
  rcases update_eq_some.mp hm with ⟨rfl, -⟩ | ⟨-, hm⟩
  · exact h.inner hn
  · exact h.inner hm

section Rebuild

variable {id low high : NodeId} {n : Node} (hid : T id) (hn : g id = some n)
  (hlow : Made x (g.cofactor y false n.low) (g.cofactor y false n.high) g low)
  (hhigh : Made x (g.cofactor y true n.low) (g.cofactor y true n.high) g high)
include hid hn hlow hhigh

theorem Amid.rebuilt_low_ne_high : low ≠ high := by
  rintro rfl
  have hl := h.grand hid hn false
  have hr := h.grand hid hn true
  -- A node that was made is a node of `x`, and a cofactor is not.
  have far : ∀ {c l r}, g.Under rank (rank x + 1) c → g c = some ⟨x, l, r⟩ → False := by
    intro c l r hc hg
    have := hc.le (h.inner hg) hg
    lia
  have hsame : g.cofactor y false n.low = g.cofactor y true n.low ∧
      g.cofactor y false n.high = g.cofactor y true n.high := by
    unfold Made at hlow hhigh
    split at hlow
    · rename_i h₀
      split at hhigh
      · rename_i h₁
        exact ⟨hlow.symm.trans hhigh, (h₀.symm.trans hlow.symm).trans (hhigh.trans h₁)⟩
      · rw [hlow] at hhigh
        exact (far (hl false) hhigh).elim
    · split at hhigh
      · rw [hhigh] at hlow
        exact (far (hl true) hlow).elim
      · obtain ⟨-, h₀, h₁⟩ := Node.mk.inj (Option.some.inj (hlow.symm.trans hhigh))
        exact ⟨h₀, h₁⟩
  obtain ⟨n', hn', -, b, m, hm, hy⟩ := h.depends hid
  obtain rfl := Option.some.inj (hn.symm.trans hn')
  have hb : g.cofactor y false (n.child b) = g.cofactor y true (n.child b) := by
    cases b
    · exact hsame.1
    · exact hsame.2
  rw [cofactor_of_level hm hy, cofactor_of_level hm hy] at hb
  exact h.low_ne_high hm hb

/-- The node that was rebuilt has the values that it had. -/
theorem Amid.eval_rebuild (hTlow : ¬ T low) (hThigh : ¬ T high) {val : Nat → Bool} {p : NodeId}
    {b : Bool} (hp : g.Eval val p b) :
    Eval (Function.update g id (some ⟨y, low, high⟩)) val p b := by
  have hne : ∀ {c}, ¬ T c → c ≠ id := by
    rintro c hc rfl
    exact hc hid
  have keep : ∀ {c}, ¬ T c → Function.update g id (some ⟨y, low, high⟩) c = g c :=
    fun hc => Function.update_of_ne (hne hc) _ _
  have hinner : ∀ {j m}, Function.update g id (some ⟨y, low, high⟩) j = some m →
      j.isTerminal = false := h.inner_rebuild hn
  induction hp with
  | bot => exact .bot
  | top => exact .top
  | @node j m b hm _ ih =>
    by_cases hj : j = id
    · subst hj
      obtain rfl := Option.some.inj (hn.symm.trans hm)
      rw [h.level_eq hid hn] at ih
      refine .node (Function.update_self _ _ _) ?_
      show Eval _ val (Node.child ⟨y, low, high⟩ (val y)) b
      -- The child on the side of `y` is made from the cofactors of both old children.
      have hmade : Made x (g.cofactor y (val y) n.low) (g.cofactor y (val y) n.high)
          (Function.update g j (some ⟨y, low, high⟩)) (Node.child ⟨y, low, high⟩ (val y)) := by
        rcases hv : val y with _ | _
        · rw [Made, Node.child_false, keep hTlow]
          exact hlow
        · rw [Made, Node.child_true, keep hThigh]
          exact hhigh
      refine hmade.eval ?_
      have hcof := ih.cofactor hinner y
      rw [cofactor_congr (keep (h.not_mem_child hid hn _))] at hcof
      rcases hv : val x with _ | _
      · rw [hv] at hcof
        exact hcof
      · rw [hv] at hcof
        exact hcof
    · exact .node ((Function.update_of_ne hj _ _).trans hm) ih

theorem Amid.cliques_rebuild (hR : g.Cliques R) :
    Cliques (Function.update g id (some ⟨y, low, high⟩)) R := by
  have hmeets : ∀ {b v}, g.Meets v (Node.child ⟨y, low, high⟩ b) → g.Meets v id := by
    have hmade : ∀ {c res v}, Made x (g.cofactor y c n.low) (g.cofactor y c n.high) g res →
        g.Meets v res → g.Meets v id := by
      intro c res v hm hv
      rcases hm.meets hv with rfl | hv | hv
      · exact .here hn (h.level_eq hid hn)
      · exact .child false hn (meets_of_cofactor hv)
      · exact .child true hn (meets_of_cofactor hv)
    intro b v hv
    cases b
    · exact hmade hlow hv
    · exact hmade hhigh hv
  refine hR.transfer (σ := fun j => j) ?_ ?_
  · intro j m hm
    rcases update_eq_some.mp hm with ⟨rfl, rfl⟩ | ⟨-, hm⟩
    · obtain ⟨n', hn', -, b, m, hm, hy⟩ := h.depends hid
      exact .child b hn' (.here hm hy)
    · exact .here hm rfl
  · intro j m hm b v hv
    rcases update_eq_some.mp hm with ⟨rfl, rfl⟩ | ⟨-, hm⟩
    · exact hmeets hv
    · exact .child b hm hv

theorem Amid.rebuild (hTlow : ¬ T low) (hThigh : ¬ T high)
    (new : ∀ j, ¬ T j → g j ≠ some ⟨y, low, high⟩) :
    Amid (Function.update g id (some ⟨y, low, high⟩)) rank bound x y fun j => T j ∧ j ≠ id := by
  have hadj := h.adjacent
  have hne := h.rebuilt_low_ne_high hid hn hlow hhigh
  have keep : ∀ {c}, c ≠ id → Function.update g id (some ⟨y, low, high⟩) c = g c :=
    fun hc => Function.update_of_ne hc _ _
  have ne_id : ∀ {c}, ¬ T c → c ≠ id := by
    rintro c hc rfl
    exact hc hid
  have hnx : n.level = x := h.level_eq hid hn
  have hmake : ∀ c, g.Under rank (rank x) (Node.child ⟨y, low, high⟩ c) := by
    intro c
    cases c
    · exact hlow.under (h.grand hid hn false false)
    · exact hhigh.under (h.grand hid hn false true)
  have hTchild : ∀ c, ¬ T (Node.child ⟨y, low, high⟩ c) := by
    intro c
    cases c
    · exact hTlow
    · exact hThigh
  have new' : ∀ j, j ≠ id → g j ≠ some ⟨y, low, high⟩ := by
    intro j _ hj
    by_cases hT : T j
    · exact h.ne (h.level_eq hT hj).symm
    · exact new j hT hj
  -- In each field a record is the new one of `id`, or one from before.
  refine ⟨?_, ?_, ?_, ?_, ?_, ?_, ?_, ?_, h.upper_lt, h.lower_lt, h.adjacent⟩
  · intro j m hm
    rcases update_eq_some.mp hm with ⟨rfl, -⟩ | ⟨-, hm⟩
    · exact h.inner hn
    · exact h.inner hm
  · intro j m hm
    rcases update_eq_some.mp hm with ⟨-, rfl⟩ | ⟨-, hm⟩
    · exact h.lower_lt
    · exact h.label_lt hm
  · intro j m hm
    rcases update_eq_some.mp hm with ⟨-, rfl⟩ | ⟨-, hm⟩
    · exact hne
    · exact h.low_ne_high hm
  · intro i j m hi hj
    rcases update_eq_some.mp hi with ⟨hii, rfl⟩ | ⟨hii, hi⟩
    · rcases update_eq_some.mp hj with ⟨hjj, -⟩ | ⟨hjj, hj⟩
      · rw [hii, hjj]
      · exact absurd hj (new' j hjj)
    · rcases update_eq_some.mp hj with ⟨-, rfl⟩ | ⟨-, hj⟩
      · exact absurd hi (new' i hii)
      · exact h.unique hi hj
  · intro j m hm hT b
    rcases update_eq_some.mp hm with ⟨-, rfl⟩ | ⟨hj, hm⟩
    · show Under _ rank (rank y + 1) _
      rw [← hadj]
      refine (hmake b).congr fun {m} hm => ?_
      rw [keep (ne_id (hTchild b))]
      exact hm
    · have hTj : ¬ T j := fun hTj => hT ⟨hTj, hj⟩
      have hb := h.rebuilt hm hTj b
      -- A parent of `id` stands above `y`, which is the label of `id` now.
      by_cases hc : m.child b = id
      · rw [hc]
        refine .inr ⟨_, Function.update_self _ _ _, ?_⟩
        exact h.parent hm (hc ▸ hid)
      · refine hb.congr fun {m'} hm' => ?_
        rw [keep hc]
        exact hm'
  · rintro j ⟨hT, hj⟩
    obtain ⟨m, hm, hx, b, m', hm', hy⟩ := h.depends hT
    refine ⟨m, (keep hj).trans hm, hx, b, m', ?_, hy⟩
    rw [keep (ne_id (h.not_mem_child hT hm b))]
    exact hm'
  · rintro j m ⟨hT, hj⟩ hm b c
    rw [keep hj] at hm
    rw [cofactor_congr (keep (ne_id (h.not_mem_child hT hm b)))]
    have hg := h.grand hT hm b c
    refine hg.congr fun {m'} hm' => ?_
    rw [keep (ne_id (h.not_mem_of_under hg))]
    exact hm'
  · rintro p m b hm ⟨hT, -⟩
    rcases update_eq_some.mp hm with ⟨-, rfl⟩ | ⟨-, hm⟩
    · exact absurd hT (hTchild b)
    · exact h.parent hm hT

end Rebuild

end Amid

/-! ### A node less -/

/-- A node without a parent can be taken away. -/
theorem Reduced.remove (h : g.Reduced rank bound) {id : NodeId} (hid : ∀ p, ¬ g.Child p id) :
    Reduced (Function.update g id none) rank bound := by
  refine h.restrict (S := fun j => j ≠ id) ?_ (fun j hj => Function.update_of_ne hj _ _) ?_
  · rintro p c - hc rfl
    exact hid p hc
  · intro j hj
    rw [not_not.mp hj, Function.update_self]

theorem Eval.remove {id : NodeId} (hid : ∀ p, ¬ g.Child p id) {val : Nat → Bool} {j : NodeId}
    {b : Bool} (hj : j ≠ id) (h : g.Eval val j b) :
    Eval (Function.update g id none) val j b := by
  refine h.of_agreeOn (S := fun j => j ≠ id) ?_ (fun j hj => Function.update_of_ne hj _ _) hj
  rintro p c - hc rfl
  exact hid p hc

end DecisionDiagram.Diagram
