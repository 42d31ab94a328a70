/-
Nodes are functions: the graph of a settled manager is reduced, ordered and shared.

* `Manager.Sound.validateAll_eq_ok` — the check of the whole graph finds nothing wrong;
* `Manager.Sound.eq_of_eval_eq` — live nodes that evaluate equally are the same node;
* `Manager.Settled.canonical` — all that holds of a manager between two calls.
-/
import DecisionDiagram.Proofs.Commands
import DecisionDiagram.Proofs.Validation

namespace DecisionDiagram

namespace Manager

variable {m : Manager} {id : NodeId} {n : Node}

/-! ### Records -/

/-- The record of a child shows that it stands below its parent. -/
theorem Sound.child_level (hm : m.Sound) (hn : m.diagram id = some n) (b : Bool) :
    ∃ r, m.node (n.child b) = .ok r ∧ n.level < r.level := by
  have hbelow := hm.reduced.below hn b
  obtain ⟨r, hr, hreads⟩ := hm.exists_reads hbelow.live
  exact ⟨r, hr, hreads.le hbelow (hm.reduced.label_lt hn)⟩

/-! ### The check of the graph -/

theorem Sound.intact (hm : m.Sound) (hn : m.diagram id = some n) : m.Intact id n :=
  hm.shared.intact hn (hm.child_level hn)

theorem Sound.validateNodes_eq_ok (hm : m.Sound) {ids : List NodeId}
    (h : ∀ id ∈ ids, ∃ n, m.diagram id = some n) : m.validateNodes ids = .ok () :=
  validateNodes_eq_ok_iff.mpr fun id hid => (h id hid).imp fun _ hn => hm.intact hn

theorem Sound.diagram_of_mem_liveIds (hm : m.Sound) (h : id ∈ m.store.liveIds) :
    ∃ n, m.diagram id = some n := hm.store.mem_liveIds.mp h

/-- The check of the whole graph finds nothing wrong. -/
theorem Sound.validateAll_eq_ok (hm : m.Sound) : m.validateAll = .ok () :=
  validateAll_eq_ok_iff.mpr ⟨fun _ hid => (hm.diagram_of_mem_liveIds hid).imp fun _ hn => hm.intact hn,
    hm.order.varAt_levelOf⟩

/-! ### Equal values -/

/-- Live nodes that evaluate equally under every assignment to the variables are the same node. -/
theorem Sound.eq_of_eval_eq (hm : m.Sound) {i j : NodeId} (hi : m.diagram.Live i)
    (hj : m.diagram.Live j)
    (h : ∀ assignment : Array Bool, assignment.size = m.varNum →
      m.eval i assignment = m.eval j assignment) : i = j := by
  refine eq_of_value_eq hm.order hm.reduced hi hj fun assignment ha => ?_
  obtain ⟨b, hb⟩ := hm.exists_value hi (valuation assignment)
  have heval := (hm.eval_iff hm.order).mpr ⟨ha.ge, hb⟩
  rw [h _ ha] at heval
  exact ⟨b, hb, ((hm.eval_iff hm.order).mp heval).2⟩

/-! ### Between two calls -/

/-- Between two calls the graph is reduced, ordered and shared, the tables of the order are inverse
to each other, nothing is pending, and whatever the manager names is live.  So the check of the
whole graph succeeds, and nodes stand for different functions. -/
theorem Settled.canonical (hm : m.Settled) :
    (∀ id ∈ m.store.liveIds, ∃ n, m.node id = .ok n ∧ n.level < m.varNum ∧ n.low ≠ n.high ∧
      (∀ b, m.store.isLive (n.child b) = true ∧
        ∃ r, m.node (n.child b) = .ok r ∧ n.level < r.level) ∧
      m.table.find m.store.nodes n = some (.found id)) ∧
    (∀ i ∈ m.store.liveIds, ∀ j ∈ m.store.liveIds, m.node i = m.node j → i = j) ∧
    (∀ (slot : Nat) (id : NodeId), m.table.slots[slot]? = some id → id = 0 ∨ id ∈ m.store.liveIds) ∧
    (m.order.levelOf.size = m.varNum ∧ m.order.varAt.size = m.varNum ∧
      ∀ (v : Var) (l : Level), m.order.levelOf[v]? = some l ↔ m.order.varAt[l]? = some v) ∧
    (m.pending = [] ∧ m.operands = []) ∧
    (∀ id, id ∈ m.roots.nodes ∨ (∃ p ∈ m.literals, id = p.1 ∨ id = p.2) ∨ id ∈ m.pairings.nodes →
      m.store.isLive id = true) ∧
    m.validateAll = .ok () ∧
    ∀ i j, m.store.isLive i = true → m.store.isLive j = true →
      (i = j ↔ ∀ assignment : Array Bool, assignment.size = m.varNum →
        m.eval i assignment = m.eval j assignment) := by
  have h := hm.ready
  refine ⟨?_, ?_, ?_, ⟨h.order.size, rfl, fun _ _ => ⟨h.order.varAt_levelOf, h.order.levelOf_varAt⟩⟩,
    ⟨h.pending, h.operands⟩, fun id hid => h.store.live_iff.mp (h.rooted (.inr (.inr hid))),
    h.validateAll_eq_ok, ?_⟩
  · intro id hid
    obtain ⟨n, hn⟩ := h.diagram_of_mem_liveIds hid
    exact ⟨n, node_of_diagram hn, h.reduced.label_lt hn, h.reduced.low_ne_high hn,
      fun b => ⟨h.store.live_iff.mp (h.reduced.below hn b).live, h.child_level hn b⟩,
      h.table.find_eq h.store h.distinct hn⟩
  · intro i hi j hj hij
    obtain ⟨n, hn⟩ := h.diagram_of_mem_liveIds hi
    obtain ⟨r, hr⟩ := h.diagram_of_mem_liveIds hj
    rw [node_of_diagram hn, node_of_diagram hr] at hij
    obtain rfl := Except.ok.inj hij
    exact h.reduced.unique hn hr
  · intro slot id hid
    by_cases hzero : id = 0
    · exact .inl hzero
    · have hlt := (Array.getElem?_eq_some_iff.mp hid).1
      have hentry := h.table.holds.entry hlt (by rwa [Nat.zero_add]) hzero
      exact .inr (h.store.mem_liveIds.mpr (Option.isSome_iff_exists.mp hentry))
  · intro i j hi hj
    refine ⟨fun hij _ _ => by rw [hij], fun heval => ?_⟩
    exact h.eq_of_eval_eq (h.store.live_iff.mpr hi) (h.store.live_iff.mpr hj) heval

/-- After a change of the order and a call that was refused. -/
theorem canonical_after_swap :
    ∃ m, after (.small 16 16) [.setVarNum 2, .apply .and 2 4, .protect 6, .swapVar 0 1,
        .setVarNum 1] = some m ∧
      m.order.toList = [1, 0] ∧ m.validateAll = .ok () ∧
      (6 = 4 ↔ ∀ assignment : Array Bool, assignment.size = m.varNum →
        m.eval 6 assignment = m.eval 4 assignment) := by
  have hrun : (after (.small 16 16) [.setVarNum 2, .apply .and 2 4, .protect 6, .swapVar 0 1,
      .setVarNum 1]).any fun m =>
        m.order.toList == [1, 0] && m.store.isLive 6 && m.store.isLive 4 := by
    decide +kernel
  obtain ⟨m, hm, hfacts⟩ := (Option.any_eq_true _ _).mp hrun
  simp only [Bool.and_eq_true, beq_iff_eq] at hfacts
  obtain ⟨⟨horder, h6⟩, h4⟩ := hfacts
  obtain ⟨-, -, -, -, -, -, hvalid, hequal⟩ := (settled_after hm).canonical
  exact ⟨m, hm, horder, hvalid, hequal 6 4 h6 h4⟩

end Manager

end DecisionDiagram
