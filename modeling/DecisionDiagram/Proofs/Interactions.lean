/-
The matrix of interactions tells which variables may meet below a node.

* `Session.Symmetric` — rows that tell the same of two variables, whichever is asked first;
* `Manager.Sound.symmetric` — whatever order the roots are traced in, the rows come out symmetric;
* `Manager.Settled.interactions_sound` — at every point of a session two labels that occur below one
  live node interact, so that an exchange which looks at no node has none to look at.
-/
import DecisionDiagram.Proofs.Sessions

namespace DecisionDiagram

namespace Diagram

variable {g : Diagram}

/-- The label of a node is met below every node from which there is a way to it. -/
theorem Reaches.meets {i j : NodeId} {n : Node} (h : g.Reaches i j) (hn : g j = some n) :
    g.Meets n.level i := by
  induction h using Relation.ReflTransGen.head_induction_on with
  | refl => exact .here hn rfl
  | head hc _ ih =>
    obtain ⟨p, b, hp, rfl⟩ := hc
    exact .child b hp ih

end Diagram

namespace Session

variable {s : Store} {g : Diagram} {rank : Nat → Nat} {bound : Nat} {rows : Array BitSet}
  {marks marks' vars vars' : BitSet}

/-! ### Symmetric rows -/

/-- If the row of `v` holds `w`, then the row of `w` holds `v`. -/
def Symmetric (rows : Array BitSet) : Prop :=
  ∀ v w, Interact rows v w → Interact rows w v

theorem Interact.lt {v w : Var} (h : Interact rows v w) : v < rows.size := by
  by_contra hv
  rw [Interact, Array.getD_eq_getD_getElem?, Array.getElem?_eq_none (Nat.le_of_not_lt hv),
    Option.getD_none, BitSet.contains_empty] at h
  cases h

/-- All members of a set get the same variables, so the rows remain symmetric. -/
theorem Symmetric.joinRows (h : Symmetric rows) (hvars : ∀ v, vars.contains v = true → v < rows.size) :
    Symmetric (joinRows rows vars) := by
  intro v w hvw
  rw [interact_joinRows] at hvw ⊢
  rcases hvw with hvw | ⟨hv, -, hw⟩
  · exact .inl (h v w hvw)
  · exact .inr ⟨hw, hvars w hw, hv⟩

/-- A trace finds labels of nodes and members of rows. -/
theorem trace_lt (hg : s.diagram.Reduced rank bound) (hsize : rows.size = bound)
    (hrows : Symmetric rows) {fuel : Nat} {id : NodeId} (hid : s.diagram.Live id)
    (hvars : ∀ v, vars.contains v = true → v < bound)
    (h : trace s.nodes rows fuel id marks vars = some (marks', vars')) :
    ∀ v, vars'.contains v = true → v < bound := by
  induction fuel generalizing id marks vars marks' vars' with
  | zero => cases h
  | succ fuel ih =>
    rw [trace] at h
    by_cases ht : id.isTerminal = true
    · rw [if_pos ht] at h
      obtain ⟨-, rfl⟩ := Prod.mk.inj (Option.some.inj h)
      exact hvars
    · rw [if_neg ht] at h
      obtain ⟨n, hn⟩ := hid.eq_some (Bool.eq_false_iff.mpr ht)
      rw [Store.nodes_of_diagram hn] at h
      dsimp only at h
      have hinsert : ∀ v, (vars.insert n.level).contains v = true → v < bound := by
        intro v hv
        rw [BitSet.contains_insert, Bool.or_eq_true, beq_iff_eq] at hv
        rcases hv with rfl | hv
        · exact hg.label_lt hn
        · exact hvars v hv
      split at h
      · obtain ⟨-, rfl⟩ := Prod.mk.inj (Option.some.inj h)
        intro v hv
        -- A node that was met before adds the row of its variable.
        rw [BitSet.contains_union, Bool.or_eq_true] at hv
        rcases hv with hv | hv
        · exact hinsert v hv
        · exact hsize ▸ (hrows n.level v hv).lt
      · split at h
        · cases h
        · rename_i hlow
          exact ih (hg.below hn true).live (ih (hg.below hn false).live hinsert hlow) h

theorem Symmetric.interact (hg : s.diagram.Reduced rank bound) {fuel varNum : Nat}
    {roots : List NodeId} {rows' : Array BitSet} (hroots : ∀ r ∈ roots, s.diagram.Live r)
    (hsize : rows.size = bound) (hrows : Symmetric rows)
    (h : interact s.nodes fuel varNum roots marks rows = some (marks', rows')) :
    Symmetric rows' := by
  induction roots generalizing marks rows with
  | nil =>
    obtain ⟨-, rfl⟩ := Prod.mk.inj (Option.some.inj h)
    exact hrows
  | cons root roots ih =>
    rw [Session.interact] at h
    split at h
    · cases h
    · rename_i marks₁ vars₁ htrace
      have hvars := trace_lt hg hsize hrows (hroots root (by simp)) (by simp) htrace
      exact ih (fun r hr => hroots r (List.mem_cons_of_mem _ hr))
        ((size_joinRows rows vars₁).trans hsize) (hrows.joinRows (hsize ▸ hvars)) h

end Session

namespace Manager

open Session

variable {m m₀ : Manager}

/-- The rows begin empty, and every root that is traced leaves them symmetric. -/
theorem Sound.symmetric (hm : m.Sound) {roots : List NodeId}
    (hsame : ∀ r, r ∈ roots ↔ r ∈ m.rootNodes) {s : Session} (h : Session.start m roots = some s) :
    Symmetric s.interactions := by
  simp only [Session.start, Option.bind_eq_bind, Option.bind_eq_some_iff, Option.pure_def,
    Option.some.injEq] at h
  obtain ⟨store, hrelabel, ⟨marks, rows⟩, hinteract, -, -, -, -, rfl⟩ := h
  obtain ⟨-, -, hdiagram, hred, -⟩ := hm.relabel hrelabel
  have hroots : ∀ r ∈ roots, store.diagram.Live r := by
    intro r hr
    rw [hdiagram]
    exact Diagram.live_relabel.mpr (hm.rooted (mem_rootNodes.mp ((hsame r).mp hr)).2)
  have hempty : Symmetric (Array.replicate m.varNum (BitSet.ofCapacity m.varNum)) := by
    intro v w hvw
    rw [Interact, Array.getD_eq_getD_getElem?, Array.getElem?_replicate] at hvw
    split at hvw <;> simp at hvw
  exact hempty.interact hred hroots Array.size_replicate hinteract

/-- The matrix of interactions is sound.  Whatever order the roots are traced in, at every point of
the session it is symmetric, and the row of a live node's variable holds every variable that occurs
below the node.  Two variables of which it does not tell that they interact are exchanged without a
look at the nodes, and no live node of the upper one has a child of the lower one then. -/
theorem Settled.interactions_sound (hm : m.Settled) (hb : m.Begins m₀) {roots : List NodeId}
    (hroots : ∀ r, r ∈ roots ↔ r ∈ m₀.rootNodes) {s s₁ : Session}
    (hs : Session.start m₀ roots = some s) (hw : s.Walk s₁) :
    (∀ v w, Reordering.interacts s₁ v w = Reordering.interacts s₁ w v) ∧
      (∀ id n, s₁.diagram id = some n → ∀ j r, s₁.diagram.Reaches id j → s₁.diagram j = some r →
        Reordering.interacts s₁ n.level r.level = true) ∧
      ∀ v level below, s₁.manager.order.levelOf[v]? = some level →
        level + 1 < s₁.manager.varNum → s₁.manager.order.varAt[level + 1]? = some below →
        Reordering.interacts s₁ v below = false →
        Reordering.vardown v s₁ = .ok () { s₁ with
          manager := { s₁.manager with
            order := s₁.manager.order.exchange level v below
            pairings := s₁.manager.pairings.swapDown level }
          swaps := s₁.swaps + 1 } ∧
        ∀ id n, s₁.diagram id = some n → n.level = v →
          ∀ b c, s₁.diagram (n.child b) = some c → c.level ≠ below := by
  have hsound := (hm.begins hb).start hroots hs
  have hs₁ := (hw.advances hsound.1).sound
  have hsymm : Symmetric s₁.interactions := by
    rw [hw.stays.interactions]
    exact (hm.begins hb).symmetric hroots hs
  have hreach : ∀ id n, s₁.diagram id = some n → ∀ j r, s₁.diagram.Reaches id j →
      s₁.diagram j = some r → Reordering.interacts s₁ n.level r.level = true :=
    fun id n hn j r hj hr => hs₁.cliques id _ _ (.here hn rfl) (hj.meets hr)
  refine ⟨fun v w => Bool.eq_iff_iff.mpr ⟨hsymm v w, hsymm w v⟩, hreach, ?_⟩
  intro v level below hlevel hlt hbelow hnot
  refine ⟨?_, fun id n hn hv b c hc heq => ?_⟩
  · refine (Reordering.run_bind (Reordering.run_expect hlevel) _).trans ?_
    refine (Reordering.run_bind (x := get) (a := s₁) rfl _).trans ?_
    rw [if_pos hlt]
    refine (Reordering.run_bind (Reordering.run_expect hbelow) _).trans ?_
    refine (Reordering.run_bind (x := get) (a := s₁) rfl _).trans ?_
    rw [hnot]
    rfl
  · have hchild := hreach id n hn (n.child b) c (.single ⟨n, b, hn, rfl⟩) hc
    rw [hv, heq, hnot] at hchild
    cases hchild

/-- The roots are traced the other way round.  Of two conjunctions over different variables, neither
is looked at when a variable of the one and a variable of the other change places. -/
theorem interactions_sound_conjunctions :
    ∃ m s s₁ s₂, after (.small 32 32) [.setVarNum 4, .apply .and 2 4, .apply .and 6 8, .protect 10,
        .protect 11] = some m ∧
      Session.start { m with pending := [] } (rootNodes { m with pending := [] }).reverse = some s ∧
      (Move.down 1).run s = .ok () s₁ ∧ s₁.diagram 10 = some ⟨0, 0, 4⟩ ∧
      Reordering.interacts s₁ 0 1 = true ∧ Reordering.interacts s₁ 2 0 = false ∧
      Reordering.vardown 0 s₁ = .ok () s₂ ∧ s₂.manager.store = s₁.manager.store ∧
      s₂.manager.order.varAt = #[2, 0, 1, 3] := by
  have hrun : (after (.small 32 32) [.setVarNum 4, .apply .and 2 4, .apply .and 6 8, .protect 10,
      .protect 11]).any fun m =>
        (Session.start { m with pending := [] } (rootNodes { m with pending := [] }).reverse).any
          fun s => (s.moves [.down 1]).any fun s₁ =>
            s₁.diagram 10 == some ⟨0, 0, 4⟩ && s₁.diagram 4 == some ⟨1, 0, 1⟩ &&
              !Reordering.interacts s₁ 0 2 && s₁.manager.order.levelOf[0]? == some 0 &&
              1 < s₁.manager.varNum && s₁.manager.order.varAt[1]? == some 2 &&
              (s₁.manager.order.exchange 0 0 2).varAt == #[2, 0, 1, 3] := by
    decide +kernel
  obtain ⟨m, hm, hrun⟩ := (Option.any_eq_true _ _).mp hrun
  obtain ⟨s, hs, hrun⟩ := (Option.any_eq_true _ _).mp hrun
  obtain ⟨s', hmoves, hfacts⟩ := (Option.any_eq_true _ _).mp hrun
  obtain ⟨s₁, hmove, hs₁⟩ := Session.moves_cons hmoves
  obtain rfl := Option.some.inj hs₁
  simp only [Bool.and_eq_true, beq_iff_eq, Bool.not_eq_true', decide_eq_true_eq] at hfacts
  obtain ⟨⟨⟨⟨⟨⟨h10, h4⟩, hnot⟩, hlevel⟩, hlt⟩, hbelow⟩, horder⟩ := hfacts
  obtain ⟨hsymm, hrows, hskip⟩ := (settled_after hm).interactions_sound .asked
    (fun _ => List.mem_reverse) hs (.step .refl hmove)
  have hreach : s₁.diagram.Reaches 10 4 := .single ⟨_, true, h10, rfl⟩
  exact ⟨m, s, s₁, _, hm, hs, hmove, h10, hrows 10 _ h10 4 _ hreach h4, (hsymm 2 0).trans hnot,
    (hskip 0 0 2 hlevel hlt hbelow hnot).1, rfl, horder⟩

end Manager

end DecisionDiagram
