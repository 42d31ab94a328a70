/-
Decision diagrams as partial maps from ids to records, and what they denote.

A `Diagram` holds the records of the inner nodes.  Their first field is a label, which is a level
as long as the order stands still and a variable while it changes; `rank` maps labels to levels.

* `Diagram.Eval` — the value of a node, by following one path;
* `Diagram.Reduced` — the diagram is reduced and ordered, and no record occurs twice;
* `Diagram.Reduced.eq_of_agree` — canonicity: in a reduced diagram, nodes with the same values are
  the same node;
* `Diagram.Eval.congr` — a value depends on the records below the node only.
-/
import Mathlib.Logic.Relation
import Mathlib.Logic.Function.Basic
import DecisionDiagram.Node

namespace DecisionDiagram

namespace Node

/-- The child of a node on the given side. -/
def child (n : Node) (b : Bool) : NodeId := if b then n.high else n.low

@[simp] theorem child_false (n : Node) : n.child false = n.low := rfl

@[simp] theorem child_true (n : Node) : n.child true = n.high := rfl

/-- The cofactor of the node `id` with the record `n` on one side of `level`. -/
def cofactor (n : Node) (id : NodeId) (level : Level) (b : Bool) : NodeId :=
  if n.level = level then n.child b else id

theorem cofactors_eq (n : Node) (id : NodeId) (level : Level) :
    n.cofactors id level = (n.cofactor id level false, n.cofactor id level true) := by
  unfold cofactors cofactor
  split <;> rfl

end Node

/-- The records of the inner nodes. -/
abbrev Diagram := NodeId → Option Node

namespace Diagram

variable {g g' : Diagram} {rank : Nat → Nat} {bound : Nat}

/-- Whether an id names a node: a terminal or an inner one. -/
def Live (g : Diagram) (id : NodeId) : Prop := id.isTerminal = true ∨ (g id).isSome = true

/-- The node `p` has the child `c`. -/
def Child (g : Diagram) (p c : NodeId) : Prop := ∃ n b, g p = some n ∧ c = n.child b

/-- There is a way down from one node to another. -/
def Reaches (g : Diagram) : NodeId → NodeId → Prop := Relation.ReflTransGen g.Child

/-- The node is live and decides no level above `k`. -/
def Under (g : Diagram) (rank : Nat → Nat) (k : Level) (id : NodeId) : Prop :=
  id.isTerminal = true ∨ ∃ n, g id = some n ∧ k ≤ rank n.level

/-- The value of a node when each label has the value `val` gives it. -/
inductive Eval (g : Diagram) (val : Nat → Bool) : NodeId → Bool → Prop
  | bot : Eval g val NodeId.bot false
  | top : Eval g val NodeId.top true
  | node {id : NodeId} {n : Node} {b : Bool} (hn : g id = some n)
      (hb : Eval g val (n.child (val n.level)) b) : Eval g val id b

/-- A reduced and ordered diagram without duplicates. -/
structure Reduced (g : Diagram) (rank : Nat → Nat) (bound : Nat) : Prop where
  inner : ∀ {id n}, g id = some n → id.isTerminal = false
  label_lt : ∀ {id n}, g id = some n → n.level < bound
  low_ne_high : ∀ {id n}, g id = some n → n.low ≠ n.high
  below : ∀ {id n}, g id = some n → ∀ b, g.Under rank (rank n.level + 1) (n.child b)
  unique : ∀ {i j n}, g i = some n → g j = some n → i = j

/-! ### Liveness -/

theorem live_of_terminal {id : NodeId} (h : id.isTerminal = true) : g.Live id := .inl h

theorem live_of_eq_some {id : NodeId} {n : Node} (h : g id = some n) : g.Live id :=
  .inr (by rw [h]; rfl)

theorem Live.eq_some {id : NodeId} (h : g.Live id) (ht : id.isTerminal = false) :
    ∃ n, g id = some n := by
  rcases h with h | h
  · rw [ht] at h
    cases h
  · exact Option.isSome_iff_exists.mp h

/-- A live node is none that has no record. -/
theorem Live.ne_of_fresh {id c : NodeId} (hc : g.Live c) (hid : id.isTerminal = false)
    (fresh : g id = none) : c ≠ id := by
  rintro rfl
  obtain ⟨n, hn⟩ := hc.eq_some hid
  rw [fresh] at hn
  cases hn

theorem Under.live {k : Level} {id : NodeId} (h : g.Under rank k id) : g.Live id := by
  rcases h with h | ⟨n, hn, -⟩
  · exact live_of_terminal h
  · exact live_of_eq_some hn

theorem Live.under {id : NodeId} (h : g.Live id) : g.Under rank 0 id := by
  rcases h with h | h
  · exact .inl h
  · obtain ⟨n, hn⟩ := Option.isSome_iff_exists.mp h
    exact .inr ⟨n, hn, Nat.zero_le _⟩

theorem Under.mono {k l : Level} {id : NodeId} (h : g.Under rank k id) (hle : l ≤ k) :
    g.Under rank l id := by
  rcases h with h | ⟨n, hn, hk⟩
  · exact .inl h
  · exact .inr ⟨n, hn, Nat.le_trans hle hk⟩

theorem Under.le {k : Level} {id : NodeId} {n : Node} (h : g.Under rank k id)
    (ht : id.isTerminal = false) (hn : g id = some n) : k ≤ rank n.level := by
  rcases h with h | ⟨n', hn', hk⟩
  · rw [ht] at h
    cases h
  · obtain rfl := Option.some.inj (hn.symm.trans hn')
    exact hk

theorem Reduced.child_live (h : g.Reduced rank bound) {p c : NodeId} (hc : g.Child p c) :
    g.Live c := by
  obtain ⟨n, b, hn, rfl⟩ := hc
  exact (h.below hn b).live

theorem Reduced.reaches_live (h : g.Reduced rank bound) {p c : NodeId} (hp : g.Live p)
    (hc : g.Reaches p c) : g.Live c := by
  rcases hc.cases_tail with rfl | ⟨q, -, hq⟩
  · exact hp
  · exact h.child_live hq

/-- A terminal has no node below it. -/
theorem Reduced.no_child (h : g.Reduced rank bound) {p c : NodeId} (hp : p.isTerminal = true) :
    ¬ g.Child p c := by
  rintro ⟨n, b, hn, -⟩
  rw [h.inner hn] at hp
  cases hp

theorem Reduced.mono (h : g.Reduced rank bound) {bound' : Nat} (hle : bound ≤ bound') :
    g.Reduced rank bound' :=
  ⟨h.inner, fun hn => Nat.lt_of_lt_of_le (h.label_lt hn) hle, h.low_ne_high, h.below, h.unique⟩

/-! ### Values -/

theorem Eval.ofBool (val : Nat → Bool) (b : Bool) : g.Eval val (NodeId.ofBool b) b := by
  cases b
  · exact .bot
  · exact .top

theorem eval_terminal {val : Nat → Bool} {id : NodeId} (h : id.isTerminal = true) :
    g.Eval val id id.isTop := by
  rcases NodeId.eq_bot_or_eq_top h with rfl | rfl
  · exact .bot
  · exact .top

theorem Eval.eq_isTop (hg : ∀ {id n}, g id = some n → id.isTerminal = false) {val : Nat → Bool}
    {id : NodeId} {b : Bool} (h : g.Eval val id b) (ht : id.isTerminal = true) : b = id.isTop := by
  cases h with
  | bot => rfl
  | top => rfl
  | node hn _ =>
    rw [hg hn] at ht
    cases ht

theorem Eval.child (hg : ∀ {id n}, g id = some n → id.isTerminal = false) {val : Nat → Bool}
    {id : NodeId} {n : Node} {b : Bool} (hn : g id = some n) (h : g.Eval val id b) :
    g.Eval val (n.child (val n.level)) b := by
  have hin := hg hn
  cases h with
  | bot => cases hin
  | top => cases hin
  | node hn' hb =>
    obtain rfl := Option.some.inj (hn.symm.trans hn')
    exact hb

/-- A node has at most one value. -/
theorem Eval.unique (hg : ∀ {id n}, g id = some n → id.isTerminal = false) {val : Nat → Bool}
    {id : NodeId} {b c : Bool} (hb : g.Eval val id b) (hc : g.Eval val id c) : b = c := by
  induction hb with
  | bot => exact (hc.eq_isTop hg rfl).symm
  | top => exact (hc.eq_isTop hg rfl).symm
  | node hn _ ih => exact ih (hc.child hg hn)

/-- A value depends on the records below the node only: `S` is a set of nodes closed under
children, on which the two diagrams agree. -/
theorem Eval.congr {S : NodeId → Prop} (closed : ∀ {p c}, S p → g.Child p c → S c)
    (agree : ∀ {p n}, S p → g p = some n → g' p = some n) {val : Nat → Bool} {id : NodeId}
    {b : Bool} (h : g.Eval val id b) (hid : S id) : g'.Eval val id b := by
  induction h with
  | bot => exact .bot
  | top => exact .top
  | node hn _ ih => exact .node (agree hid hn) (ih (closed hid ⟨_, _, hn, rfl⟩))

/-- Only labels that occur matter. -/
theorem Eval.congr_val {val val' : Nat → Bool}
    (hval : ∀ {id n}, g id = some n → val n.level = val' n.level) {id : NodeId} {b : Bool}
    (h : g.Eval val id b) : g.Eval val' id b := by
  induction h with
  | bot => exact .bot
  | top => exact .top
  | node hn _ ih =>
    rw [hval hn] at ih
    exact .node hn ih

theorem Under.congr {k : Level} {id : NodeId} (h : g.Under rank k id)
    (agree : ∀ {n}, g id = some n → g' id = some n) : g'.Under rank k id := by
  rcases h with h | ⟨n, hn, hk⟩
  · exact .inl h
  · exact .inr ⟨n, agree hn, hk⟩

/-- Every live node has a value.  The induction is on the distance from the lowest level. -/
theorem Reduced.exists_eval (h : g.Reduced rank bound) (hr : ∀ v, v < bound → rank v < bound)
    (val : Nat → Bool) {id : NodeId} (hid : g.Live id) : ∃ b, g.Eval val id b := by
  have key : ∀ d id, g.Under rank (bound - d) id → ∃ b, g.Eval val id b := by
    intro d
    induction d with
    | zero =>
      intro id hid
      rcases hid with ht | ⟨n, hn, hk⟩
      · exact ⟨_, eval_terminal ht⟩
      · have := hr _ (h.label_lt hn)
        lia
    | succ d ih =>
      intro id hid
      rcases hid with ht | ⟨n, hn, hk⟩
      · exact ⟨_, eval_terminal ht⟩
      · obtain ⟨b, hb⟩ := ih _ ((h.below hn (val n.level)).mono (by lia))
        exact ⟨b, .node hn hb⟩
  exact key bound id (hid.under.mono (by lia))

/-- A value depends on the labels from the node's own level down only. -/
theorem Eval.of_agree (h : g.Reduced rank bound) {val val' : Nat → Bool} {id : NodeId} {b : Bool}
    (hb : g.Eval val id b) :
    ∀ {k}, g.Under rank k id → (∀ v, k ≤ rank v → val v = val' v) → g.Eval val' id b := by
  induction hb with
  | bot => exact fun _ _ => .bot
  | top => exact fun _ _ => .top
  | @node id n b hn _ ih =>
    intro k hk hv
    have hle := hk.le (h.inner hn) hn
    refine .node hn ?_
    rw [← hv _ hle]
    exact ih (h.below hn _) fun v hlt => hv v (by lia)

/-- The value of a node below the level of a label does not depend on that label. -/
theorem Eval.update (h : g.Reduced rank bound) {val : Nat → Bool} {id : NodeId} {b : Bool}
    (hb : g.Eval val id b) {l : Nat} (hid : g.Under rank (rank l + 1) id) (x : Bool) :
    g.Eval (Function.update val l x) id b := by
  refine hb.of_agree h hid fun v hlt => ?_
  have hne : v ≠ l := by
    rintro rfl
    lia
  rw [Function.update_of_ne hne]

/-- Two nodes have the same value under every assignment. -/
def Agree (g : Diagram) (i j : NodeId) : Prop := ∀ val, ∃ b, g.Eval val i b ∧ g.Eval val j b

/-- If two nodes agree, so do the child of the one on either side and the child of the other. -/
theorem Agree.child (h : g.Reduced rank bound) {i j : NodeId} (hij : g.Agree i j) {n m : Node}
    (hn : g i = some n) (hm : g j = some m) (hl : n.level = m.level) (x : Bool) :
    g.Agree (n.child x) (m.child x) := by
  intro val
  obtain ⟨b, hi, hj⟩ := hij (Function.update val n.level x)
  have hi := hi.child h.inner hn
  have hj := hj.child h.inner hm
  rw [Function.update_self] at hi
  rw [← hl, Function.update_self] at hj
  have back : Function.update (Function.update val n.level x) n.level (val n.level) = val := by
    rw [Function.update_idem, Function.update_eq_self]
  refine ⟨b, ?_, ?_⟩
  · have := hi.update h (h.below hn x) (val n.level)
    rwa [back] at this
  · have := hj.update h (l := n.level) (hl ▸ h.below hm x) (val n.level)
    rwa [back] at this

/-- If a node agrees with one below its level, so does its child on either side. -/
theorem Agree.child_left (h : g.Reduced rank bound) {i j : NodeId} (hij : g.Agree i j) {n : Node}
    (hn : g i = some n) (hj : g.Under rank (rank n.level + 1) j) (x : Bool) :
    g.Agree (n.child x) j := by
  intro val
  obtain ⟨b, hi, hb⟩ := hij (Function.update val n.level x)
  have hi := hi.child h.inner hn
  rw [Function.update_self] at hi
  have back : Function.update (Function.update val n.level x) n.level (val n.level) = val := by
    rw [Function.update_idem, Function.update_eq_self]
  refine ⟨b, ?_, ?_⟩
  · have := hi.update h (h.below hn x) (val n.level)
    rwa [back] at this
  · have := hb.update h hj (val n.level)
    rwa [back] at this

theorem Agree.symm {i j : NodeId} (h : g.Agree i j) : g.Agree j i := fun val =>
  let ⟨b, hi, hj⟩ := h val
  ⟨b, hj, hi⟩

theorem Agree.trans (hg : ∀ {id n}, g id = some n → id.isTerminal = false) {i j k : NodeId}
    (h : g.Agree i j) (h' : g.Agree j k) : g.Agree i k := fun val => by
  obtain ⟨b, hi, hj⟩ := h val
  obtain ⟨c, hj', hk⟩ := h' val
  obtain rfl := hj.unique hg hj'
  exact ⟨b, hi, hk⟩

/-- Canonicity: nodes of a reduced diagram that agree under every assignment are the same node.
Labels with the same rank are the same. -/
theorem Reduced.eq_of_agree (h : g.Reduced rank bound) (hr : ∀ v, v < bound → rank v < bound)
    (hinj : ∀ v w, v < bound → w < bound → rank v = rank w → v = w) {i j : NodeId}
    (hi : g.Live i) (hj : g.Live j) (hij : g.Agree i j) : i = j := by
  have key : ∀ d i j, g.Under rank (bound - d) i → g.Under rank (bound - d) j → g.Agree i j →
      i = j := by
    intro d
    induction d with
    | zero =>
      intro i j hi hj hij
      have terminal : ∀ {i}, g.Under rank (bound - 0) i → i.isTerminal = true := by
        intro i hi
        rcases hi with ht | ⟨n, hn, hk⟩
        · exact ht
        · have := hr _ (h.label_lt hn)
          lia
      obtain ⟨b, hbi, hbj⟩ := hij fun _ => false
      have hti := hbi.eq_isTop h.inner (terminal hi)
      have htj := hbj.eq_isTop h.inner (terminal hj)
      rcases NodeId.eq_bot_or_eq_top (terminal hi) with rfl | rfl <;>
        rcases NodeId.eq_bot_or_eq_top (terminal hj) with rfl | rfl
      · rfl
      · exact absurd (hti.symm.trans htj) (by decide)
      · exact absurd (hti.symm.trans htj) (by decide)
      · rfl
    | succ d ih =>
      -- A node at the top level of the two would have two equal children.
      have redundant : ∀ {i j n}, g i = some n → bound - (d + 1) ≤ rank n.level →
          g.Under rank (rank n.level + 1) j → g.Agree i j → False := by
        intro i j n hn hk hj hij
        have hlow := hij.child_left h hn hj false
        have hhigh := hij.child_left h hn hj true
        refine h.low_ne_high hn (ih _ _ ((h.below hn false).mono (by lia))
          ((h.below hn true).mono (by lia)) ?_)
        exact hlow.trans h.inner hhigh.symm
      intro i j hi hj hij
      rcases hi with hti | ⟨n, hn, hkn⟩ <;> rcases hj with htj | ⟨m, hm, hkm⟩
      · exact ih i j (.inl hti) (.inl htj) hij
      · exact (redundant hm hkm (.inl hti) hij.symm).elim
      · exact (redundant hn hkn (.inl htj) hij).elim
      · rcases Nat.lt_trichotomy (rank n.level) (rank m.level) with hlt | heq | hgt
        · exact (redundant hn hkn (.inr ⟨m, hm, hlt⟩) hij).elim
        · have hl : n.level = m.level := hinj _ _ (h.label_lt hn) (h.label_lt hm) heq
          have side : ∀ b, n.child b = m.child b := fun b =>
            ih _ _ ((h.below hn b).mono (by lia)) ((h.below hm b).mono (by lia))
              (hij.child h hn hm hl b)
          have hnm : n = m := by
            have hlow := side false
            have hhigh := side true
            cases n
            cases m
            simp only [Node.child_false, Node.child_true] at hlow hhigh hl
            rw [hl, hlow, hhigh]
          exact h.unique hn (hnm ▸ hm)
        · exact (redundant hm hkm (.inr ⟨n, hn, hgt⟩) hij.symm).elim
  exact key bound i j (hi.under.mono (by lia)) (hj.under.mono (by lia)) hij

/-- The values of a child do not depend on the label of its parent. -/
theorem Reduced.eval_child (h : g.Reduced rank bound) {id : NodeId} {n : Node} (hn : g id = some n)
    {val : Nat → Bool} {x b : Bool} (hb : g.Eval (Function.update val n.level x) id b) :
    g.Eval val (n.child x) b := by
  have hc := hb.child h.inner hn
  rw [Function.update_self] at hc
  have hback := hc.update h (h.below hn x) (val n.level)
  rwa [Function.update_idem, Function.update_eq_self] at hback

/-- A node whose value is decided by one label has the record of a literal. -/
theorem Reduced.eq_literal (h : g.Reduced rank bound) (hr : ∀ v, v < bound → rank v < bound)
    (hinj : ∀ v w, v < bound → w < bound → rank v = rank w → v = w) {id : NodeId}
    (hid : g.Live id) {l : Nat} {f : Bool → Bool} (hf : f false ≠ f true)
    (hval : ∀ val, g.Eval val id (f (val l))) :
    g id = some ⟨l, NodeId.ofBool (f false), NodeId.ofBool (f true)⟩ := by
  have ht : id.isTerminal = false := by
    rw [Bool.eq_false_iff]
    intro ht
    have h₀ := (hval fun _ => false).eq_isTop h.inner ht
    have h₁ := (hval fun _ => true).eq_isTop h.inner ht
    exact hf (h₀.trans h₁.symm)
  obtain ⟨n, hn⟩ := hid.eq_some ht
  have hchild : ∀ val x, g.Eval val (n.child x) (f (Function.update val n.level x l)) :=
    fun val x => h.eval_child hn (hval _)
  -- If the node decided another variable, its two children would agree.
  have hlevel : n.level = l := by
    by_contra hne
    refine h.low_ne_high hn (h.eq_of_agree hr hinj (h.below hn false).live (h.below hn true).live ?_)
    intro val
    have h₀ := hchild val false
    have h₁ := hchild val true
    rw [Function.update_of_ne (Ne.symm hne)] at h₀ h₁
    exact ⟨_, h₀, h₁⟩
  have hside : ∀ x, n.child x = NodeId.ofBool (f x) := by
    intro x
    refine h.eq_of_agree hr hinj (h.below hn x).live ?_ fun val => ?_
    · exact live_of_terminal (by cases f x <;> rfl)
    · have hx := hchild val x
      rw [hlevel, Function.update_self] at hx
      exact ⟨_, hx, .ofBool val _⟩
  have hlow := hside false
  have hhigh := hside true
  cases n
  simp only [Node.child_false, Node.child_true] at hlow hhigh hlevel
  rw [hn, hlevel, hlow, hhigh]

/-! ### The node with a given record -/

/-- `res` is the reduced form of the record. -/
def Made (level : Level) (l h : NodeId) (g : Diagram) (res : NodeId) : Prop :=
  if l = h then res = l else g res = some ⟨level, l, h⟩

section Made

variable {level : Level} {l h res : NodeId}

theorem Made.live (hm : Made level l h g res) (hl : g.Live l) : g.Live res := by
  unfold Made at hm
  split at hm
  · exact hm ▸ hl
  · exact live_of_eq_some hm

theorem Made.under (hm : Made level l h g res) (hl : g.Under rank (rank level + 1) l) :
    g.Under rank (rank level) res := by
  unfold Made at hm
  split at hm
  · rw [hm]
    exact hl.mono (Nat.le_succ _)
  · exact .inr ⟨_, hm, Nat.le_refl _⟩

theorem Made.eval (hm : Made level l h g res) {val : Level → Bool} {b : Bool}
    (hb : g.Eval val (if val level then h else l) b) : g.Eval val res b := by
  unfold Made at hm
  split at hm
  · rename_i heq
    rw [hm]
    rw [← heq, ite_self] at hb
    exact hb
  · exact .node hm hb

end Made

/-! ### Sets of nodes -/

/-- With a node, its children belong to the set. -/
def Closed (g : Diagram) (S : NodeId → Prop) : Prop := ∀ {p c}, S p → g.Child p c → S c

/-- The terminals, the nodes of a list and all nodes below these. -/
def Below (g : Diagram) (R : List NodeId) (id : NodeId) : Prop :=
  ∃ r, (r.isTerminal = true ∨ r ∈ R) ∧ g.Reaches r id

variable {R R' : List NodeId} {S : NodeId → Prop}

/-- There is no way down from a terminal. -/
theorem Reduced.eq_of_reaches (h : g.Reduced rank bound) {r id : NodeId} (hr : r.isTerminal = true)
    (hreach : g.Reaches r id) : id = r := by
  rcases hreach.cases_head with heq | ⟨c, ⟨n, b, hn, -⟩, -⟩
  · exact heq.symm
  · rw [h.inner hn] at hr
    cases hr

theorem below_of_terminal {id : NodeId} (h : id.isTerminal = true) : g.Below R id :=
  ⟨id, .inl h, .refl⟩

theorem below_of_mem {id : NodeId} (h : id ∈ R) : g.Below R id := ⟨id, .inr h, .refl⟩

theorem below_closed (g : Diagram) (R : List NodeId) : g.Closed (g.Below R) := by
  rintro p c ⟨r, hr, hp⟩ hc
  exact ⟨r, hr, hp.tail hc⟩

theorem Below.live (h : g.Reduced rank bound) (hR : ∀ r ∈ R, g.Live r) {id : NodeId}
    (hid : g.Below R id) : g.Live id := by
  obtain ⟨r, hr | hr, hp⟩ := hid
  · exact h.reaches_live (.inl hr) hp
  · exact h.reaches_live (hR r hr) hp

theorem Closed.reaches (hS : g.Closed S) {p c : NodeId} (hp : S p) (h : g.Reaches p c) : S c := by
  induction h with
  | refl => exact hp
  | tail _ hc ih => exact hS ih hc

theorem Closed.congr (hS : g.Closed S) (agree : ∀ id, S id → g' id = g id) : g'.Closed S := by
  intro p c hp hc
  obtain ⟨n, b, hn, rfl⟩ := hc
  exact hS hp ⟨n, b, (agree p hp).symm.trans hn, rfl⟩

theorem Live.congr {id : NodeId} (h : g.Live id) (agree : g' id = g id) : g'.Live id := by
  rw [Live, agree]
  exact h

/-- Where two diagrams agree on a closed set, so do the ways down from it. -/
theorem Closed.reaches_congr (hS : g.Closed S) (agree : ∀ id, S id → g' id = g id) {p c : NodeId}
    (hp : S p) (h : g.Reaches p c) : g'.Reaches p c := by
  induction h with
  | refl => exact .refl
  | @tail q c hq hc ih =>
    refine ih.tail ?_
    obtain ⟨n, b, hn, rfl⟩ := hc
    exact ⟨n, b, (agree q (hS.reaches hp hq)).trans hn, rfl⟩

theorem Below.congr (agree : ∀ id, g.Below R id → g' id = g id) (hR : R ⊆ R') {id : NodeId}
    (hid : g.Below R id) : g'.Below R' id := by
  obtain ⟨r, hr, hp⟩ := hid
  refine ⟨r, hr.imp_right (hR ·), ?_⟩
  exact Closed.reaches_congr (below_closed g R) agree ⟨r, hr, .refl⟩ hp

theorem Eval.of_agreeOn (hS : g.Closed S) (agree : ∀ id, S id → g' id = g id)
    {val : Nat → Bool} {id : NodeId} {b : Bool} (hid : S id) (h : g.Eval val id b) :
    g'.Eval val id b :=
  h.congr hS (fun hp hn => (agree _ hp).trans hn) hid

/-- A closed part of a reduced diagram is reduced. -/
theorem Reduced.restrict (h : g.Reduced rank bound) (hS : g.Closed S)
    (agree : ∀ id, S id → g' id = g id) (out : ∀ id, ¬ S id → g' id = none) :
    g'.Reduced rank bound := by
  have part : ∀ {id n}, g' id = some n → S id ∧ g id = some n := by
    intro id n hn
    by_cases hid : S id
    · exact ⟨hid, (agree id hid).symm.trans hn⟩
    · rw [out id hid] at hn
      cases hn
  refine ⟨fun hn => h.inner (part hn).2, fun hn => h.label_lt (part hn).2,
    fun hn => h.low_ne_high (part hn).2, ?_, fun hi hj => h.unique (part hi).2 (part hj).2⟩
  intro id n hn b
  obtain ⟨hid, hg⟩ := part hn
  refine (h.below hg b).congr fun {m} hm => ?_
  rw [agree _ (hS hid ⟨n, b, hg, rfl⟩)]
  exact hm

/-! ### One new record -/

theorem update_eq_some {id j : NodeId} {n m : Node} :
    Function.update g id (some n) j = some m ↔ (j = id ∧ m = n) ∨ (j ≠ id ∧ g j = some m) := by
  rw [Function.update_apply]
  by_cases hj : j = id
  · simp [hj, eq_comm]
  · simp [hj]

/-- The old nodes keep their records when a new one is added. -/
theorem update_of_fresh {id j : NodeId} {n m : Node} (fresh : g id = none) (hm : g j = some m) :
    Function.update g id (some n) j = some m := by
  refine update_eq_some.mpr (.inr ⟨?_, hm⟩)
  rintro rfl
  rw [fresh] at hm
  cases hm

/-- A new node keeps the diagram reduced, if no other one has its record. -/
theorem Reduced.insert (h : g.Reduced rank bound) {id : NodeId} {n : Node}
    (hid : id.isTerminal = false) (fresh : g id = none) (hlt : n.level < bound)
    (hne : n.low ≠ n.high) (below : ∀ b, g.Under rank (rank n.level + 1) (n.child b))
    (new : ∀ j, g j ≠ some n) :
    Reduced (Function.update g id (some n)) rank bound := by
  have keep : ∀ {k j}, g.Under rank k j → Under (Function.update g id (some n)) rank k j :=
    fun hj => hj.congr (update_of_fresh fresh)
  -- In each field a record is the new one, or one from before.
  refine ⟨?_, ?_, ?_, ?_, ?_⟩
  · intro j m hm
    rcases update_eq_some.mp hm with ⟨rfl, -⟩ | ⟨-, hm⟩
    · exact hid
    · exact h.inner hm
  · intro j m hm
    rcases update_eq_some.mp hm with ⟨-, rfl⟩ | ⟨-, hm⟩
    · exact hlt
    · exact h.label_lt hm
  · intro j m hm
    rcases update_eq_some.mp hm with ⟨-, rfl⟩ | ⟨-, hm⟩
    · exact hne
    · exact h.low_ne_high hm
  · intro j m hm b
    rcases update_eq_some.mp hm with ⟨-, rfl⟩ | ⟨-, hm⟩
    · exact keep (below b)
    · exact keep (h.below hm b)
  · intro i j m hi hj
    rcases update_eq_some.mp hi with ⟨hii, rfl⟩ | ⟨-, hi'⟩
    · rcases update_eq_some.mp hj with ⟨hjj, -⟩ | ⟨-, hj'⟩
      · rw [hii, hjj]
      · exact absurd hj' (new j)
    · rcases update_eq_some.mp hj with ⟨-, rfl⟩ | ⟨-, hj'⟩
      · exact absurd hi' (new i)
      · exact h.unique hi' hj'

end Diagram

end DecisionDiagram
