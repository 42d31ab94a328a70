/-
A variable that finds no room for its two literals.

New variables are added one after the other, each with its positive literal first.  If the store runs full
in between, the positive literal stays behind: no variable owns it, and its level is past the last one.
Everything else is as it is between two calls, and as nothing names that node, the next collection frees
it.

* `Build.Making.of_ok`, `.of_error` — making a node makes no other;
* `Build.addVariables_error` — so there is one such literal at most when the work breaks off;
* `Manager.Extending.evolves_settle` — what is adapted at the end does not depend on it;
* `Manager.Settled.extension` — what a request for more variables leaves that has found no room.
-/
import DecisionDiagram.Proofs.Creation
import DecisionDiagram.Proofs.Exhaustion
import DecisionDiagram.Proofs.Totality

namespace DecisionDiagram

open Manager

namespace Build

variable {α β : Type} {m m' m₀ : Manager} {n k : Node} {bound : Nat} {f id : NodeId} {i : Interrupt}

/-! ### Nodes that come into being -/

/-- Two steps break off in the first or in the second. -/
theorem of_bind_error {x : Build α} {g : α → Build β} (h : (x >>= g) m = .error i m') :
    x m = .error i m' ∨ ∃ a m₁, x m = .ok a m₁ ∧ g a m₁ = .error i m' := by
  rcases hx : x m with ⟨a, m₁⟩ | ⟨j, m₁⟩
  · rw [bind_ok hx] at h
    exact .inr ⟨a, m₁, rfl, h⟩
  · rw [bind_error hx] at h
    obtain ⟨rfl, rfl⟩ := EStateM.Result.error.inj h
    exact .inl rfl

theorem Created.diagram_cases (h : Created m f n m') (hk : m'.diagram id = some k) :
    k = n ∨ m.diagram id = some k := by
  rw [h.diagram, Function.update_apply] at hk
  split at hk
  · exact .inl (Option.some.inj hk).symm
  · exact .inr hk

/-- There is no other node after a node has been made. -/
theorem Making.of_ok (h : Making m n bound (.ok f m')) (hk : m'.diagram id = some k) :
    k = n ∨ m.diagram id = some k := by
  cases h with
  | found _ => exact .inr hk
  | free h _ => exact h.diagram_cases hk
  | freed _ hclear _ h _ => exact (h.diagram_cases hk).imp_right hclear.diagram_eq

/-- No node comes into being in vain. -/
theorem Making.of_error (h : Making m n bound (.error i m')) (hk : m'.diagram id = some k) :
    m.diagram id = some k := by
  cases h with
  | standing _ => exact hk
  | due hclear _ => exact hclear.diagram_eq hk
  | limit hclear _ => exact hclear.diagram_eq hk

end Build

/-! ### A variable that finds no room -/

/-- The record of the positive literal of the variable after the last one. -/
def Manager.pastLiteral (m : Manager) : Node := ⟨m.varNum, NodeId.bot, NodeId.top⟩

namespace Build

variable {m m' m₀ : Manager} {i : Interrupt}

/-- The work on the next variable has broken off: there is one node at its level at most, and the reason
is a full store, unless the error stood before. -/
structure Halts (m : Manager) (i : Interrupt) (m' : Manager) : Prop where
  evolves : m.Evolves m'
  coherent : m'.Coherent (m.varNum + 1)
  records : ∀ {id n}, m'.diagram id = some n → n.level < m.varNum ∨ n = m.pastLiteral
  full : i = Interrupt.error .nodeLimit →
    m'.error = some .nodeLimit ∧ (m.error = some .nodeLimit ∨ m'.Full)

/-- The work breaks off where a literal cannot be made. -/
theorem Halts.of_mk {m₁ : Manager} (he : m.Evolves m₁) (hc : m₁.Coherent (m.varNum + 1))
    (herror : m₁.error = m.error) {l r : NodeId} (hne : l ≠ r) (hl : l.isTerminal = true)
    (hr : r.isTerminal = true)
    (hrecords : ∀ {id n}, m₁.diagram id = some n → n.level < m.varNum ∨ n = m.pastLiteral)
    (hmk : Build.mk m.varNum l r m₁ = .error i m') : Halts m i m' := by
  have hens := (Ensures.mk hc (Nat.lt_succ_self _) (kept_of_terminal hl) (kept_of_terminal hr)
    (.inl hl) (.inl hr)).rebase he
  have hmaking := making_mk hc.shared (Nat.lt_succ_self _) hne (kept_of_terminal hl)
    (kept_of_terminal hr) (.inl hl) (.inl hr)
  rw [Ensures, hmk] at hens
  rw [hmk] at hmaking
  refine ⟨hens.2.1, hens.2.2, fun hn => hrecords (hmaking.of_error hn), ?_⟩
  rintro rfl
  rw [← herror]
  exact mk_nodeLimit hc hmk

theorem addVariable_error (h : Extending m₀ m) (hx : addVariable m = .error i m') : Halts m i m' := by
  have hc := Extending.coherent_succ h
  have hlt : ∀ {id n}, m.diagram id = some n → n.level < m.varNum := h.reduced.label_lt
  rcases of_bind_error (x := mk m.varNum NodeId.bot NodeId.top) hx with hmk | ⟨pos, m₁, hmk, hx⟩
  · exact .of_mk (.refl m) hc rfl (by decide) rfl rfl (fun hn => .inl (hlt hn)) hmk
  · have hpos : Making m m.pastLiteral (m.varNum + 1) (mk m.varNum NodeId.bot NodeId.top m) :=
      making_mk hc.shared (Nat.lt_succ_self _) (by decide) (kept_of_terminal rfl) (kept_of_terminal rfl)
        (.inl rfl) (.inl rfl)
    have hens := Ensures.mk (l := NodeId.bot) (h := NodeId.top) hc (Nat.lt_succ_self _)
      (kept_of_terminal rfl) (kept_of_terminal rfl) (.inl rfl) (.inl rfl)
    have hquiet := Steady.mk m.varNum NodeId.bot NodeId.top m
    rw [hmk] at hpos hquiet
    rw [Ensures, hmk] at hens
    obtain ⟨he₁, hc₁, -, hmade⟩ := hens
    have hlive : m₁.diagram.Live pos := by
      rw [Diagram.Made, if_neg (by decide)] at hmade
      exact Diagram.live_of_eq_some hmade
    obtain ⟨m₂, hm₂⟩ : ∃ m₂, m₂ = { m₁ with pending := pos :: m₁.pending } := ⟨_, rfl⟩
    obtain ⟨he₂, hc₂, -⟩ : m.Evolves m₂ ∧ m₂.Coherent (m.varNum + 1) ∧ _ := by
      rw [hm₂]
      exact Ensures.push he₁ hc₁ hlive
    have hx : (do
        let neg ← mk m.varNum NodeId.top NodeId.bot
        pop
        modify (Manager.enter (pos, neg)) : Build Unit) m₂ = .error i m' := by
      rw [hm₂]
      exact hx
    rcases of_bind_error (x := mk m.varNum NodeId.top NodeId.bot) hx with hmk | ⟨neg, m₃, hmk, hx⟩
    · refine .of_mk he₂ hc₂ ?_ (by decide) rfl rfl (fun {id n} hn => ?_) hmk
      · rw [hm₂]
        exact hquiet.error
      · have hn : m₁.diagram id = some n := by rwa [hm₂] at hn
        exact (hpos.of_ok hn).symm.imp_left hlt
    · -- The positive literal is pending, so nothing else can fail.
      have hens := Ensures.mk (l := NodeId.top) (h := NodeId.bot) hc₂ (Nat.lt_succ_self _)
        (kept_of_terminal rfl) (kept_of_terminal rfl) (.inl rfl) (.inl rfl)
      rw [Ensures, hmk] at hens
      have hp : m₃.pending = pos :: m₁.pending := by rw [hens.2.2.1, hm₂]
      cases (bind_ok (pop_eq hp)).symm.trans hx

/-- Some variables are complete when the work on the next one breaks off. -/
theorem addVariables_error (h : Extending m₀ m) {count : Nat}
    (hx : addVariables count m = .error i m') :
    ∃ m₁, Extending m₀ m₁ ∧ m₁.error = m.error ∧ Halts m₁ i m' := by
  induction count generalizing m with
  | zero => cases hx
  | succ count ih =>
    rcases of_bind_error (x := addVariable) hx with hx | ⟨_, m₁, hadd, hx⟩
    · exact ⟨m, h, rfl, addVariable_error h hx⟩
    · have hadds := Adds.addVariable h
      have hquiet := Steady.addVariable m
      rw [Adds, hadd] at hadds
      rw [hadd] at hquiet
      rw [← hquiet.error]
      exact ih hadds hx

end Build

namespace Manager

variable {m m' m₀ m₁ : Manager} {bound : Nat} {id : NodeId} {n : Node}

/-! ### The end of the call -/

/-- What is kept was kept before, if all that is named was, and what was kept is the same. -/
theorem kept_of_agree (agree : ∀ id, m.Kept id → m'.diagram id = m.diagram id)
    (hrooted : ∀ {id}, m'.Rooted id → m.Kept id) (hid : m'.Kept id) : m.Kept id := by
  obtain ⟨r, hr, hreach⟩ := hid
  have hkept : m.Kept r := hr.elim kept_of_terminal fun hr => hrooted (mem_rootNodes.mp hr).2
  exact Diagram.Closed.reaches (Diagram.Closed.congr (kept_closed m) agree) hkept hreach

theorem Evolves.kept_of (h : m.Evolves m') (hp : m'.pending ⊆ m.pending) (hid : m'.Kept id) :
    m.Kept id := by
  refine kept_of_agree h.kept (fun hid => kept_of_rooted ?_) hid
  rw [Rooted, h.operands, h.roots, h.literals, h.pairings] at hid
  exact hid.imp_left (hp ·)

theorem Extending.kept_settle (h : Extending m₀ m) (hid : m.settle.Kept id) : m.Kept id := by
  refine kept_of_agree (fun id _ => ?_) (fun hid => ?_) hid
  · rw [diagram_settle]
  · exact kept_of_rooted (rooted_settle h.order h.literals_size hid)

/-- What is adapted to the number of variables does not depend on nodes that are not kept. -/
theorem Extending.evolves_settle (h : Extending m₀ m) (he : m.Evolves m') :
    m.settle.Evolves m'.settle := by
  refine ⟨⟨he.order, he.literals, he.operands, he.roots, ?_, he.forest, he.auto, he.config⟩,
    List.Subset.refl _, fun {id} ht => ?_, fun id hid => ?_⟩
  · show m'.pairings.extend m'.identity = m.pairings.extend m.identity
    rw [identity, identity, he.order, he.literals, he.pairings]
  · show (m'.store.setTerminalLevel m'.varNum).node? id = (m.store.setTerminalLevel m.varNum).node? id
    rw [Store.node?_setTerminalLevel, Store.node?_setTerminalLevel, he.terminals ht, he.varNum]
  · rw [diagram_settle, diagram_settle]
    exact he.kept id (h.kept_settle hid)

theorem Coherent.tighten (h : m.Coherent bound) {bound' : Nat}
    (hlt : ∀ {id n}, m.diagram id = some n → n.level < bound') : m.Coherent bound' :=
  ⟨h.store, ⟨h.reduced.inner, hlt, h.reduced.low_ne_high, h.reduced.below, h.reduced.unique⟩, h.table,
    h.rooted, h.computed, h.error⟩

end Manager

namespace Build.Halts

variable {m m' m₀ m'' : Manager} {i : Interrupt}

/-- The graph is coherent, but for its bound. -/
theorem settle (h : Halts m i m') (hm : Extending m₀ m) : m'.settle.Coherent (m.varNum + 1) := by
  have he := hm.evolves_settle h.evolves
  refine ⟨h.coherent.store.setTerminalLevel _, ?_, ?_, fun {id} hid => ?_, ?_, h.coherent.error⟩
  · rw [diagram_settle]
    exact h.coherent.reduced
  · exact h.coherent.table.congr rfl (diagram_settle m')
  · rw [Rooted, he.operands, he.roots, he.literals, he.pairings] at hid
    exact (hm.settle.rooted hid).congr (he.kept id (kept_of_rooted hid))
  · rw [diagram_settle]
    refine h.coherent.computed.clearCounts.renews (.extend (n := m₀.varNum) ?_ _)
    exact h.evolves.pairings.symm ▸ hm.fits

/-- Without a literal that is left over, all is as between two calls. -/
theorem ready (h : Halts m i m') (hm : Extending m₀ m)
    (hnone : ∀ id, m'.diagram id ≠ some m.pastLiteral) : m'.settle.Ready := by
  have he := hm.evolves_settle h.evolves
  have hc : m'.settle.Coherent m.varNum := (h.settle hm).tighten fun {id n} hn => by
    rw [diagram_settle] at hn
    exact (h.records hn).resolve_right fun heq => hnone id (heq ▸ hn)
  exact ⟨hm.settle.toSound.evolves he hc, rfl, he.operands.trans hm.settle.operands⟩

/-- A collection frees the literal that is left over. -/
theorem exists_collect (h : Halts m i m') (hm : Extending m₀ m) :
    ∃ freed m'', m'.settle.collect = some (freed, m'') ∧ m''.Ready ∧ m''.varNum = m'.varNum := by
  have he := hm.evolves_settle h.evolves
  have hc := h.settle hm
  obtain ⟨freed, m'', hcollect, hC⟩ := Manager.exists_collect hc.store hc.reduced
    hc.shared.rootNodes_live
  refine ⟨freed, m'', hcollect, ⟨?_, hC.pending, hC.operands.trans ?_⟩, hC.varNum⟩
  · refine hm.settle.toSound.evolves (he.trans hC.evolves) ((hc.collected hC).tighten ?_)
    -- What is left was there before the work on the last variable began.
    intro id n hn
    have hkept := (hC.live_iff hc.kept_live).mp (Diagram.live_of_eq_some hn)
    have hkept' := he.kept_of (List.Subset.refl _) hkept
    rw [hC.kept id hkept, he.kept id hkept'] at hn
    exact hm.settle.reduced.label_lt hn
  · exact he.operands.trans hm.settle.operands

theorem setAuto (h : Halts m i m') (auto : AutoReorder) :
    Halts { m with auto } i { m' with auto } :=
  ⟨⟨⟨h.evolves.order, h.evolves.literals, h.evolves.operands, h.evolves.roots, h.evolves.pairings,
      h.evolves.forest, rfl, h.evolves.config⟩, h.evolves.pending, h.evolves.terminals, h.evolves.kept⟩,
    ⟨h.coherent.store, h.coherent.reduced, h.coherent.table, h.coherent.rooted, h.coherent.computed,
      h.coherent.error⟩, h.records, fun hi => (h.full hi).imp_right (.imp_right (·.congr rfl rfl))⟩

end Build.Halts

namespace Manager

variable {m m' : Manager}

/-- What a request for more variables leaves that has found no room: the variables that are complete,
and one literal too many at most. -/
structure Extended (m m' : Manager) : Prop where
  varNum : m.varNum ≤ m'.varNum
  coherent : m'.Coherent (m'.varNum + 1)
  order : m'.order.Valid
  literals_size : m'.literals.size = m'.varNum
  literals : ∀ {v : Var} {p l}, m'.literals[v]? = some p → m'.order.levelOf[v]? = some l →
    m'.diagram p.1 = some ⟨l, NodeId.bot, NodeId.top⟩ ∧
    m'.diagram p.2 = some ⟨l, NodeId.top, NodeId.bot⟩
  records : ∀ {id n}, m'.diagram id = some n → n.level < m'.varNum ∨ n = m'.pastLiteral
  full : m'.error = some .nodeLimit ∧ (m.error = some .nodeLimit ∨ m'.Full)
  ready : (∀ id, m'.diagram id ≠ some m'.pastLiteral) → m'.Ready
  collect : ∃ freed m'', m'.collect = some (freed, m'') ∧ m''.Ready ∧ m''.varNum = m'.varNum

theorem Extending.extended {m₀ m₁ m₂ : Manager} (h : Extending m₀ m₁)
    (hhalts : Build.Halts m₁ (.error .nodeLimit) m₂) (hvar : m₀.varNum = m.varNum)
    (herror : m₁.error = m.error) : m.Extended m₂.settle := by
  have he := h.evolves_settle hhalts.evolves
  have hvar₂ : m₂.settle.varNum = m₁.varNum := he.varNum
  have hpast : m₂.settle.pastLiteral = m₁.pastLiteral := by rw [pastLiteral, hvar₂, pastLiteral]
  obtain ⟨hlimit, hfull⟩ := hhalts.full rfl
  refine ⟨?_, hvar₂ ▸ hhalts.settle h, he.order ▸ h.settle.order, ?_, fun {v p l} hp hl => ?_,
    fun {id n} hn => ?_, ⟨hlimit, ?_⟩, fun hnone => ?_, hhalts.exists_collect h⟩
  · rw [hvar₂, ← hvar]
    exact h.retains.varNum
  · rw [he.literals, hvar₂]
    exact h.literals_size
  · rw [he.literals] at hp
    rw [he.order] at hl
    obtain ⟨hpos, hneg⟩ := named_literal hp
    rw [he.kept _ (kept_of_rooted hpos.rooted), he.kept _ (kept_of_rooted hneg.rooted)]
    exact h.settle.literals hp hl
  · rw [diagram_settle] at hn
    rw [hvar₂, hpast]
    exact hhalts.records hn
  · rw [← herror]
    exact hfull.imp_right fun h => ⟨h.free, h.fixed⟩
  · rw [hpast, diagram_settle] at hnone
    exact hhalts.ready h hnone

/-- There is no second literal too many. -/
theorem Extended.unique (h : m.Extended m') {id id' : NodeId}
    (hid : m'.diagram id = some m'.pastLiteral) (hid' : m'.diagram id' = some m'.pastLiteral) :
    id = id' := h.coherent.reduced.unique hid hid'

/-- The check of the whole graph finds that literal, and nothing else. -/
theorem Extended.validateAll_eq_ok_iff (h : m.Extended m') :
    m'.validateAll = .ok () ↔ ∀ id, m'.diagram id ≠ some m'.pastLiteral := by
  refine ⟨fun hvalid id hid => ?_, fun hnone => (h.ready hnone).validateAll_eq_ok⟩
  obtain ⟨n, hn⟩ := (Manager.validateAll_eq_ok_iff.mp hvalid).1 id
    (h.coherent.store.mem_liveIds.mpr ⟨_, hid⟩)
  obtain rfl := Except.ok.inj (hn.node.symm.trans (node_of_diagram hid))
  exact Nat.lt_irrefl _ hn.level_lt

end Manager

namespace Action

variable {m : Manager}

theorem Ensures.addVariables_extended (hm : m.Ready) (count : Nat) :
    Ensures m (Manager.addVariables count) (fun _ _ => True) fun e m' =>
      e = .nodeLimit → m.Extended m' := by
  unfold Ensures Manager.addVariables
  rcases hx : Build.addVariables count { m with pending := [], auto := m.auto.disable } with
    ⟨_, m₂⟩ | ⟨_ | e | _, m₂⟩
  · trivial
  · trivial
  · rintro rfl
    obtain ⟨m₁, h, herror, hhalts⟩ := Build.addVariables_error hm.extendable.extending hx
    exact (h.setAuto _).extended (hhalts.setAuto m₂.auto.enable) rfl herror
  · trivial

theorem Ensures.setVarNum_extended (hm : m.Ready) (num : Nat) :
    Ensures m (Manager.setVarNum num) (fun _ _ => True) fun e m' => e = .nodeLimit → m.Extended m' := by
  refine .get ?_
  dsimp only
  split
  · exact .fail nofun
  · split
    · exact .fail nofun
    · split
      · exact .pure trivial
      · exact .addVariables_extended hm _

theorem Ensures.extVarNum_extended (hm : m.Ready) (extra : Nat) :
    Ensures m (Manager.extVarNum extra) (fun _ _ => True) fun e m' => e = .nodeLimit → m.Extended m' := by
  refine .get ?_
  dsimp only
  split
  · exact .fail nofun
  · exact (Ensures.setVarNum_extended hm _).bind fun _ _ _ => .pure trivial

end Action

namespace Command

variable {m : Manager} {c : Command}

theorem extended (hm : m.Ready) (hc : c.isExtension = true)
    (he : (c.run m).1 = .error (.error .nodeLimit)) : m.Extended (c.run m).2 := by
  have hensures : Action.Ensures m c.perform (fun _ _ => True) fun e m' =>
      e = .nodeLimit → m.Extended m' := by
    cases c with
    | setVarNum num => exact (Action.Ensures.setVarNum_extended hm num).bind fun _ _ _ => trivial
    | extVarNum extra => exact (Action.Ensures.extVarNum_extended hm extra).bind fun _ _ _ => trivial
    | _ => cases hc
  exact of_error hensures he rfl

end Command

namespace Manager

variable {m m' : Manager}

/-- A request for more variables that finds no room leaves the variables that are complete, and the
positive literal of one more at most.  It is what the check of the whole graph finds.  Without it every
command has an answer, and a collection frees it. -/
theorem Settled.extension (hm : m.Settled) {c : Command} (hc : c.isExtension = true)
    (he : c.run m = (.error (.error .nodeLimit), m')) :
    m.Extended m' ∧
    (∀ {id id'}, m'.diagram id = some m'.pastLiteral → m'.diagram id' = some m'.pastLiteral → id = id') ∧
    (m'.validateAll = .ok () ↔ ∀ id, m'.diagram id ≠ some m'.pastLiteral) ∧
    (m'.validateAll = .ok () → ∀ c' : Command, c'.Issued m' → (c'.run m').1 ≠ .error .fault) ∧
    ∃ freed m'', Command.gc.run m' = (.ok (.number freed), m'') ∧ m''.varNum = m'.varNum ∧
      m''.validateAll = .ok () ∧
      ∀ c' : Command, c'.Issued m'' → (c'.run m'').1 ≠ .error .fault := by
  have h : m.Extended m' := by
    have h := Command.extended hm.ready hc (by rw [he])
    rwa [he] at h
  have hreachable : m'.Reachable := by
    have h := Reachable.call c hm.reachable (by rw [he]; simp)
    rwa [he] at h
  refine ⟨h, h.unique, h.validateAll_eq_ok_iff, fun hvalid c' hc' => Command.run_ne_fault
    (h.ready (h.validateAll_eq_ok_iff.mp hvalid)) hreachable.nested hc', ?_⟩
  obtain ⟨freed, m'', hcollect, hready, hvar⟩ := h.collect
  have hgc : Command.gc.run m' = (.ok (.number freed), m'') := by
    have hperform : Command.gc.perform m' = .ok (.number freed) m'' :=
      Action.bind_ok (by rw [gc, hcollect])
    rw [Command.run, hperform]
  have hnested := (Reachable.call .gc hreachable (by rw [hgc]; simp)).nested
  rw [hgc] at hnested
  exact ⟨freed, m'', hgc, hvar, hready.validateAll_eq_ok, fun _ => Command.run_ne_fault hready hnested⟩

/-- There is room for the two literals of one variable and for one node more. -/
theorem extension_literal :
    ∃ m m', after (.small 5 5) [] = some m ∧
      (Command.setVarNum 2).run m = (.error (.error .nodeLimit), m') ∧
      m'.varNum = 1 ∧ m'.Full ∧ m'.diagram 4 = some m'.pastLiteral ∧ m'.validateAll ≠ .ok () ∧
      ∃ freed m'', Command.gc.run m' = (.ok (.number freed), m'') ∧ m''.validateAll = .ok () := by
  have hrun : (after (.small 5 5) []).any fun m =>
      m.error == none && (Command.setVarNum 2).failure? m == some (.error .nodeLimit) &&
        ((Command.setVarNum 2).run m).2.varNum == 1 &&
        ((Command.setVarNum 2).run m).2.diagram 4 == some ⟨1, NodeId.bot, NodeId.top⟩ := by
    decide +kernel
  obtain ⟨m, hm, hfacts⟩ := (Option.any_eq_true _ _).mp hrun
  simp only [Bool.and_eq_true, beq_iff_eq] at hfacts
  obtain ⟨⟨⟨herror, hfails⟩, hvar⟩, hid⟩ := hfacts
  have he : (Command.setVarNum 2).run m =
      (.error (.error .nodeLimit), ((Command.setVarNum 2).run m).2) :=
    Prod.ext (Command.run_of_failure? hfails) rfl
  obtain ⟨hextended, -, hvalid, -, freed, m'', hgc, -, hcollected, -⟩ :=
    (settled_after hm).extension rfl he
  have hpast : ((Command.setVarNum 2).run m).2.diagram 4 =
      some ((Command.setVarNum 2).run m).2.pastLiteral := by rw [hid, pastLiteral, hvar]
  refine ⟨m, _, hm, he, hvar, ?_, hpast, fun hok => hvalid.mp hok 4 hpast, freed, m'', hgc, hcollected⟩
  have hfull := hextended.full.2
  rw [herror] at hfull
  exact hfull.resolve_left nofun

end Manager

end DecisionDiagram
