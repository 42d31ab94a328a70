/-
The counts of a session are exact, and what they say depends on the order only.

* `Move.back` — the move that takes another one back;
* `Manager.Settled.counts_exact` — as long as no count is saturated, except those of the roots, the
  counts are those of the diagram, and every order has its size.
-/
import DecisionDiagram.Proofs.Reorder.Sizes
import DecisionDiagram.Proofs.Sessions

namespace DecisionDiagram

/-- The move in the other direction. -/
def Move.back : Move → Move
  | down v => up v
  | up v => down v

theorem Move.Changes.back {move : Move} {o o' o'' : VarOrder} (h : move.Changes o o')
    (ho : o.Valid) (hne : o' ≠ o) (h' : move.back.Changes o' o'') : o'' = o := by
  cases move with
  | down v => exact VarOrder.Lowers.back h ho hne h'
  | up v => exact VarOrder.Raises.back h ho hne h'

namespace Session

variable {s s₁ s₂ s₃ : Session}

instance : Decidable s.Unsaturated :=
  decidable_of_iff
    (∀ id, id < s.refs.size → (s.diagram id).isSome = true → s.refs.getD id 0 = maxRefs →
      id ∈ s.manager.rootNodes) <| by
    constructor
    · intro h id hsome hmax
      by_cases hid : id < s.refs.size
      · exact (Manager.mem_rootNodes.mp (h id hid hsome hmax)).2
      · rw [Array.getD_eq_getD_getElem?, Array.getElem?_eq_none (Nat.not_lt.mp hid)] at hmax
        cases hmax
    · intro h id _ hsome hmax
      obtain ⟨n, hn⟩ := Option.isSome_iff_exists.mp hsome
      exact Manager.mem_rootNodes.mpr ⟨Store.inner_of_diagram hn, h id hsome hmax⟩

/-- The inner nodes are those below the roots. -/
theorem Sound.exists_iff_below (h : s.Sound) (hu : s.Unsaturated) {id : NodeId} :
    (∃ n, s.diagram id = some n) ↔
      id.isTerminal = false ∧ s.diagram.Below s.manager.rootNodes id := by
  constructor
  · rintro ⟨n, hn⟩
    exact ⟨h.reduced.inner hn, h.below hu hn⟩
  · rintro ⟨hinner, hbelow⟩
    rcases hbelow.live h.reduced fun r hr => h.root_live hr with ht | hsome
    · rw [hinner] at ht
      cases ht
    · exact Option.isSome_iff_exists.mp hsome

/-- A move that changes the order and the move back. -/
theorem Sound.order_back (h : s₁.Sound) {move : Move} (hmove : move.run s₁ = .ok () s₂)
    (hne : s₂.manager.order ≠ s₁.manager.order) (hback : move.back.run s₂ = .ok () s₃) :
    s₃.manager.order = s₁.manager.order := by
  have h₂ := Reordering.Ensures.move h move
  rw [Reordering.Ensures, hmove] at h₂
  have h₃ := Reordering.Ensures.move h₂.1.sound move.back
  rw [Reordering.Ensures, hback] at h₃
  exact h₂.2.back h.order hne h₃.2

end Session

namespace Manager

variable {m m₀ : Manager}

/-- Every inner node that is no root is referred to, and its count is the number of the references.
The inner nodes are those below the roots, and the table counts them by variable.  Whenever the
session has the same order it has the same sizes, in particular when a move is taken back. -/
theorem Settled.counts_exact (hm : m.Settled) (hb : m.Begins m₀) {s s₁ : Session}
    (hs : Session.start m₀ m₀.rootNodes = some s) (hw : s.Walk s₁) (hu : s₁.Unsaturated) :
    (∀ id, (∃ n, s₁.diagram id = some n) → ¬ m₀.Rooted id →
      s₁.refs.getD id 0 = s₁.diagram.indegree s₁.refs.size id ∧ 0 < s₁.refs.getD id 0) ∧
    (∀ id, (∃ n, s₁.diagram id = some n) ↔
      id.isTerminal = false ∧ s₁.diagram.Below m₀.rootNodes id) ∧
    (∀ v, v < m₀.varNum →
      s₁.table.count? v = some {id | ∃ n, s₁.diagram id = some n ∧ n.level = v}.ncard) ∧
    (∀ s₂, s.Walk s₂ → s₂.Unsaturated → s₂.manager.order = s₁.manager.order →
      s₂.size = s₁.size ∧ ∀ v, s₂.table.count? v = s₁.table.count? v) ∧
    ∀ (move : Move) s₂ s₃, move.run s₁ = .ok () s₂ → s₂.manager.order ≠ s₁.manager.order →
      move.back.run s₂ = .ok () s₃ → s₃.Unsaturated → s₃.manager.order = s₁.manager.order ∧
        s₃.size = s₁.size ∧ ∀ v, s₃.table.count? v = s₁.table.count? v := by
  obtain ⟨hsound, hopens⟩ := (hm.begins hb).start (fun _ => .rfl) hs
  have ha := hw.advances hsound
  have hrooted : ∀ id, s₁.manager.Rooted id ↔ m₀.Rooted id := fun id =>
    ha.keeps.rooted.trans hopens.rooted
  have hvar : s₁.manager.varNum = m₀.varNum := by
    rw [ha.keeps.varNum, hopens.manager]
    rfl
  refine ⟨?_, ?_, ?_, ?_, ?_⟩
  · rintro id ⟨n, hn⟩ hid
    have hsome : (s₁.diagram id).isSome = true := by rw [hn]; rfl
    exact ⟨ha.sound.refs_eq hu hn fun h => hid ((hrooted id).mp h), ha.sound.referred hsome⟩
  · intro id
    rw [ha.sound.exists_iff_below hu]
    refine and_congr_right fun _ => exists_congr fun r => and_congr_left fun _ =>
      or_congr_right ?_
    rw [mem_rootNodes, mem_rootNodes, hrooted]
  · intro v hv
    exact ha.sound.count?_eq_ncard (hvar ▸ hv)
  · intro s₂ hw₂ hu₂ ho
    exact hw.sizes_eq hsound hw₂ ho hu hu₂
  · intro move s₂ s₃ hmove hne hback hu₃
    have ho := ha.sound.order_back hmove hne hback
    exact ⟨ho, hw.sizes_eq hsound ((hw.step hmove).step hback) ho hu hu₃⟩

/-- The disjunction of two conjunctions has more nodes while their factors are apart. -/
theorem counts_exact_conjunctions :
    ∃ m s s₂ s₃, after (.small 32 32) [.setVarNum 4, .apply .and 2 4, .apply .and 6 8,
        .apply .or 10 11, .protect 13] = some m ∧
      m.openSession = some s ∧ s.Unsaturated ∧ (Move.down 1).run s = .ok () s₂ ∧
      (Move.up 1).run s₂ = .ok () s₃ ∧ s₃.Unsaturated ∧ s.size < s₂.size ∧ s₃.size = s.size := by
  have hrun : (after (.small 32 32) [.setVarNum 4, .apply .and 2 4, .apply .and 6 8,
      .apply .or 10 11, .protect 13]).any fun m => m.openSession.any fun s =>
        s.Unsaturated && (s.moves [.down 1]).any fun s₂ =>
          (s.size < s₂.size && s₂.manager.order ≠ s.manager.order) &&
            (s₂.moves [.up 1]).any fun s₃ => s₃.Unsaturated := by
    decide +kernel
  obtain ⟨m, hm, hrun⟩ := (Option.any_eq_true _ _).mp hrun
  obtain ⟨s, hs, hrun⟩ := (Option.any_eq_true _ _).mp hrun
  rw [Bool.and_eq_true, decide_eq_true_eq] at hrun
  obtain ⟨hu, hrun⟩ := hrun
  obtain ⟨s₂, hdown, hrun⟩ := (Option.any_eq_true _ _).mp hrun
  rw [Bool.and_eq_true, Bool.and_eq_true, decide_eq_true_eq, decide_eq_true_eq] at hrun
  obtain ⟨⟨hlt, horder⟩, hrun⟩ := hrun
  obtain ⟨s₃, hup, hu₃⟩ := (Option.any_eq_true _ _).mp hrun
  rw [decide_eq_true_eq] at hu₃
  obtain ⟨s₂', hmove, h⟩ := Session.moves_cons hdown
  obtain rfl := Option.some.inj h
  obtain ⟨s₃', hback, h⟩ := Session.moves_cons hup
  obtain rfl := Option.some.inj h
  have hexact := (settled_after hm).counts_exact .asked hs .refl hu
  have hsize := (hexact.2.2.2.2 (.down 1) s₂' s₃' hmove horder hback hu₃).2.1
  exact ⟨m, s, s₂', s₃', hm, hs, hu, hmove, hback, hu₃, hlt, hsize⟩

end Manager

end DecisionDiagram
