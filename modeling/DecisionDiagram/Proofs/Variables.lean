/-
New variables.

* `Manager.Extending` — what holds between two new variables of one call, when the terminals and the
  pairings are not adapted yet;
* `Build.Adds.addVariable` — a new variable gets its two literals, or the store runs full on the way;
* `Action.Extends.setVarNum` — more variables, after which the named nodes evaluate as before, even
  if the store runs full.
-/
import DecisionDiagram.Proofs.Calls
import DecisionDiagram.Proofs.Pairings
import DecisionDiagram.Variables

namespace DecisionDiagram

open Manager

namespace Manager

variable {m₀ m m' : Manager} {R : NodeId → Prop}

/-! ### Between two new variables -/

/-- What holds of a manager to which variables are being added, `m₀` being the one before. -/
structure Extending (m₀ m : Manager) : Prop extends Coherent m m.varNum where
  order : m.order.Valid
  terminals : m.store.TerminalsAt m₀.varNum
  literals_size : m.literals.size = m.varNum
  literals : ∀ {v : Var} {p l}, m.literals[v]? = some p → m.order.levelOf[v]? = some l →
    m.diagram p.1 = some ⟨l, NodeId.bot, NodeId.top⟩ ∧
    m.diagram p.2 = some ⟨l, NodeId.top, NodeId.bot⟩
  pairings : m.pairings = m₀.pairings
  fits : m.pairings.Fits m₀.varNum
  pending : m.pending = []
  operands : m.operands = []
  retains : m₀.Retains (fun _ => False) m

/-- The pair is entered as the literals of a new variable. -/
def enter (p : NodeId × NodeId) (m : Manager) : Manager :=
  { m with literals := m.literals.push p, order := m.order.append }

theorem varNum_enter (p : NodeId × NodeId) : (m.enter p).varNum = m.varNum + 1 :=
  VarOrder.size_append _

theorem size_literals_enter (p : NodeId × NodeId) :
    (m.enter p).literals.size = m.literals.size + 1 := Array.size_push _

theorem getElem?_literals_enter {v : Var} {p q : NodeId × NodeId} (h : m.literals[v]? = some q) :
    (m.enter p).literals[v]? = some q := by
  show (m.literals.push p)[v]? = some q
  rw [Array.getElem?_push, if_neg (Nat.ne_of_lt (Array.getElem?_eq_some_iff.mp h).1)]
  exact h

/-- There are no entries for the new variable yet. -/
theorem Carries.enter {n : Nat} (ho : m.order.Valid) (hp : m.pairings.Fits n) (hn : n ≤ m.varNum)
    (p : NodeId × NodeId) : m.Carries none (m.enter p) := by
  have hsize : m.order.levelOf.size = m.varNum := ho.size
  refine ⟨Nat.le_refl _, fun _ hf => ?_, fun {number v f} _ _ hnone hf => ?_,
    fun hplain t ht l f hf hlast => ?_⟩
  · obtain ⟨t, l, ht, hv, hf⟩ := substitute?_eq_some.mp hf
    refine substitute?_eq_some.mpr ⟨t, l, ht, ?_, hf⟩
    show (m.order.levelOf.push m.order.size)[_]? = some l
    rw [Array.getElem?_push, if_neg (Nat.ne_of_lt (Array.getElem?_eq_some_iff.mp hv).1)]
    exact hv
  · obtain ⟨t, l, ht, hv, hf⟩ := substitute?_eq_some.mp hf
    have hv : (m.order.levelOf.push m.order.size)[v]? = some l := hv
    rw [Array.getElem?_push] at hv
    split at hv
    · obtain rfl := Option.some.inj hv
      have hlt := (Array.getElem?_eq_some_iff.mp hf).1
      rw [(hp.entries t (Array.mem_of_getElem? ht)).1] at hlt
      exact absurd hn (Nat.not_le.mpr hlt)
    · cases hnone.symm.trans (substitute?_eq_some.mpr ⟨t, l, ht, hv, hf⟩)
  · obtain ⟨v, hv, hpositive⟩ := hplain t ht hf hlast
    obtain ⟨q, hq, rfl⟩ := Option.map_eq_some_iff.mp hpositive
    refine ⟨v, ?_, ?_⟩
    · show (m.order.varAt.push m.order.size)[l]? = some v
      rw [Array.getElem?_push, if_neg (Nat.ne_of_lt (Array.getElem?_eq_some_iff.mp hv).1)]
      exact hv
    · exact Option.map_eq_some_iff.mpr ⟨q, getElem?_literals_enter hq, rfl⟩

/-- Values do not depend on how the order goes on below all labels. -/
theorem value_append (hg : m.diagram.Reduced id m.varNum) {id : NodeId} {a : Var → Bool} {b : Bool}
    (h : m.Value a id b) :
    m.diagram.Eval (fun l => a (m.order.append.varAt.getD l 0)) id b := by
  refine h.congr_val fun {j n} hn => ?_
  have hlt : n.level < m.order.varAt.size := hg.label_lt hn
  show a _ = a ((m.order.varAt.push m.order.size).getD n.level 0)
  rw [Array.getD_eq_getD_getElem?, Array.getD_eq_getD_getElem?, Array.getElem?_push,
    if_neg (Nat.ne_of_lt hlt)]

theorem Coherent.enter (hc : m.Coherent (m.varNum + 1)) {p : NodeId × NodeId}
    (hpos : m.diagram.Live p.1) (hneg : m.diagram.Live p.2) :
    (m.enter p).Coherent (m.enter p).varNum := by
  refine ⟨hc.store, ?_, hc.table, ?_, hc.computed, hc.error⟩
  · rw [varNum_enter]
    exact hc.reduced
  · rintro id (hid | hid | hid | ⟨q, hq, hid⟩ | hid)
    · exact hc.rooted (.inl hid)
    · exact hc.rooted (.inr (.inl hid))
    · exact hc.rooted (.inr (.inr (.inl hid)))
    · rcases Array.mem_push.mp hq with hq | rfl
      · exact hc.rooted (.inr (.inr (.inr (.inl ⟨q, hq, hid⟩))))
      · rcases hid with rfl | rfl
        · exact hpos
        · exact hneg
    · exact hc.rooted (.inr (.inr (.inr (.inr hid))))

/-- The literals of the variables so far are those that they were, and the pair is that of the new
one. -/
theorem Extending.literals_enter (h : Extending m₀ m) (he : m.Evolves m') {p : NodeId × NodeId}
    (hpos : m'.diagram p.1 = some ⟨m.varNum, NodeId.bot, NodeId.top⟩)
    (hneg : m'.diagram p.2 = some ⟨m.varNum, NodeId.top, NodeId.bot⟩) {v : Var}
    {q : NodeId × NodeId} {l : Level} (hq : (m'.enter p).literals[v]? = some q)
    (hl : (m'.enter p).order.levelOf[v]? = some l) :
    m'.diagram q.1 = some ⟨l, NodeId.bot, NodeId.top⟩ ∧
      m'.diagram q.2 = some ⟨l, NodeId.top, NodeId.bot⟩ := by
  have hq : (m'.literals.push p)[v]? = some q := hq
  have hl : (m'.order.levelOf.push m'.order.size)[v]? = some l := hl
  have hsize : m.order.levelOf.size = m.literals.size := h.order.size.trans h.literals_size.symm
  rw [he.literals, Array.getElem?_push] at hq
  rw [he.order, Array.getElem?_push, hsize] at hl
  split at hq
  · rename_i hv
    rw [if_pos hv] at hl
    obtain rfl := Option.some.inj hq
    obtain rfl := Option.some.inj hl
    exact ⟨hpos, hneg⟩
  · rename_i hv
    rw [if_neg hv] at hl
    obtain ⟨hq₁, hq₂⟩ := named_literal hq
    rw [he.kept _ (kept_of_rooted hq₁.rooted), he.kept _ (kept_of_rooted hq₂.rooted)]
    exact h.literals hq hl

/-- All named nodes evaluate as they did. -/
theorem Extending.retains_enter (h : Extending m₀ m) (he : m.Evolves m') (p : NodeId × NodeId) :
    m.Retains (fun _ => False) (m'.enter p) := by
  have hvar := he.varNum
  refine ⟨?_, fun hq => getElem?_literals_enter (he.literals ▸ hq), fun hid => ?_, ?_,
    fun {id a b} hid hb => ?_⟩
  · rw [varNum_enter, hvar]
    exact Nat.le_succ _
  · rcases hid with hid | ⟨q, hq, hid⟩ | hid
    · exact .inl (he.roots ▸ hid)
    · exact .inr (.inl ⟨q, Array.mem_push.mpr (.inl (he.literals ▸ hq)), hid⟩)
    · exact .inr (.inr (he.pairings ▸ hid))
  · refine (Carries.of_eq he.order he.pairings he.literals).trans
      (.enter (n := m₀.varNum) ?_ ?_ ?_ p) getElem?_literals_enter
    · exact he.order.symm ▸ h.order
    · exact he.pairings.symm ▸ h.fits
    · exact hvar.symm ▸ h.retains.varNum
  · have hid := hid.resolve_left fun hF => hF
    show m'.diagram.Eval (fun l => a (m'.order.append.varAt.getD l 0)) id b
    rw [he.order]
    exact he.eval (kept_of_rooted hid.rooted) (value_append h.reduced hb)

theorem Extending.enter (h : Extending m₀ m) (he : m.Evolves m') (hc : m'.Coherent (m.varNum + 1))
    (hp : m'.pending = []) {p : NodeId × NodeId}
    (hpos : m'.diagram p.1 = some ⟨m.varNum, NodeId.bot, NodeId.top⟩)
    (hneg : m'.diagram p.2 = some ⟨m.varNum, NodeId.top, NodeId.bot⟩) :
    Extending m₀ (m'.enter p) := by
  have hvar := he.varNum
  refine ⟨Coherent.enter (by rwa [hvar]) (Diagram.live_of_eq_some hpos)
    (Diagram.live_of_eq_some hneg), ?_, ?_, ?_, h.literals_enter he hpos hneg,
    he.pairings.trans h.pairings, he.pairings.symm ▸ h.fits, hp, he.operands.trans h.operands,
    h.retains.trans (h.retains_enter he p)⟩
  · show m'.order.append.Valid
    rw [he.order]
    exact h.order.append
  · intro id ht
    obtain ⟨n, hn, hl⟩ := h.terminals id ht
    exact ⟨n, (he.terminals ht).trans hn, hl⟩
  · rw [varNum_enter, size_literals_enter, he.literals, hvar, h.literals_size]

end Manager

namespace Build

variable {m₀ m m' m'' : Manager}

/-- The work adds variables, or the store runs full on the way to the next one. -/
def Adds (m₀ m : Manager) (x : Build Unit) : Prop :=
  match x m with
  | .ok _ m' => Extending m₀ m'
  | .error i m' => (i = Interrupt.error .nodeLimit ∨ i = Interrupt.reorder) ∧
    ∃ m₁, Extending m₀ m₁ ∧ m₁.Evolves m' ∧ m'.Coherent (m₁.varNum + 1)

theorem Adds.congr {x y : Build Unit} (h : Adds m₀ m' y) (hxy : x m = y m') : Adds m₀ m x := by
  rw [Adds, hxy]
  exact h

theorem Adds.bind {x : Build Unit} {f : Unit → Build Unit} (h : Adds m₀ m x)
    (hf : ∀ m', Extending m₀ m' → Adds m₀ m' (f ())) : Adds m₀ m (x >>= f) := by
  rcases hx : x m with ⟨_, m'⟩ | ⟨i, m'⟩
  · rw [Adds, hx] at h
    exact (hf m' h).congr (bind_ok hx)
  · rw [Adds, hx] at h
    rw [Adds, bind_error hx]
    exact h

theorem Extending.coherent_succ (h : Extending m₀ m) : m.Coherent (m.varNum + 1) :=
  ⟨h.store, h.reduced.mono (Nat.le_succ _), h.table, h.rooted, h.computed, h.error⟩

/-- The work ends when a literal cannot be made. -/
theorem Adds.of_error {x : Build Unit} (h : Extending m₀ m) (hc : m'.Coherent (m.varNum + 1))
    {l r : NodeId} {i : Interrupt} (hi : Build.mk m.varNum l r m' = .error i m'')
    (hf : i.Regular) (he : m.Evolves m'') (hc' : m''.Coherent (m.varNum + 1))
    (hx : x m = .error i m'') : Adds m₀ m x := by
  rw [Adds, hx]
  refine ⟨?_, m, h, he, hc'⟩
  rcases Build.mk_error hc hi with rfl | rfl | ⟨rfl, -⟩
  · exact absurd rfl hf.ne_fault
  · exact .inl rfl
  · exact .inr rfl

theorem Adds.addVariable (h : Extending m₀ m) : Adds m₀ m addVariable := by
  have hc := Extending.coherent_succ h
  have hbot : ∀ {m : Manager}, m.Kept NodeId.bot := kept_of_terminal rfl
  have htop : ∀ {m : Manager}, m.Kept NodeId.top := kept_of_terminal rfl
  have hpos := Ensures.mk hc (Nat.lt_succ_self _) hbot htop (.inl rfl) (.inl rfl)
  rcases hx : Build.mk m.varNum NodeId.bot NodeId.top m with ⟨pos, m₁⟩ | ⟨i, m₁⟩
  · rw [Ensures, hx] at hpos
    obtain ⟨he₁, hc₁, hp₁, hmade⟩ := hpos
    have hpos : m₁.diagram pos = some ⟨m.varNum, NodeId.bot, NodeId.top⟩ := by
      rwa [Diagram.Made, if_neg (by decide)] at hmade
    -- The positive literal is pending while the negative one is made.
    obtain ⟨m₂, hm₂⟩ : ∃ m₂, m₂ = { m₁ with pending := pos :: m₁.pending } := ⟨_, rfl⟩
    obtain ⟨he₂, hc₂, -⟩ : m.Evolves m₂ ∧ m₂.Coherent (m.varNum + 1) ∧ _ := by
      rw [hm₂]
      exact Ensures.push he₁ hc₁ (Diagram.live_of_eq_some hpos)
    have hpos₂ : m₂.diagram pos = some ⟨m.varNum, NodeId.bot, NodeId.top⟩ := hm₂ ▸ hpos
    have hp₂ : m₂.pending = [pos] := by rw [hm₂, hp₁, h.pending]
    have hbind : Build.addVariable m = (do
        let neg ← Build.mk m.varNum NodeId.top NodeId.bot
        Build.pop
        modify (Manager.enter (pos, neg)) : Build Unit) m₂ := by
      rw [hm₂]
      exact bind_ok hx
    have hneg := (Ensures.mk hc₂ (Nat.lt_succ_self _) htop hbot (.inl rfl) (.inl rfl)).rebase he₂
    rcases hy : Build.mk m.varNum NodeId.top NodeId.bot m₂ with ⟨neg, m₃⟩ | ⟨i, m₃⟩
    · rw [Ensures, hy] at hneg
      obtain ⟨he, hc', he₃, hp₃, hmade⟩ := hneg
      have hneg : m₃.diagram neg = some ⟨m.varNum, NodeId.top, NodeId.bot⟩ := by
        rwa [Diagram.Made, if_neg (by decide)] at hmade
      have hpos : m₃.diagram pos = some ⟨m.varNum, NodeId.bot, NodeId.top⟩ :=
        (he₃.kept pos (kept_of_pending (hp₂ ▸ List.mem_cons_self))).trans hpos₂
      have hres : Build.addVariable m = .ok () (Manager.enter (pos, neg) { m₃ with pending := [] }) :=
        hbind.trans ((bind_ok hy).trans (bind_ok (pop_eq (hp₃.trans hp₂))))
      rw [Adds, hres]
      exact h.enter (he.setPending (by rw [h.pending]; exact List.nil_subset _))
        (hc'.setPending (by simp)) rfl hpos hneg
    · rw [Ensures, hy] at hneg
      exact .of_error h hc₂ hy hneg.1 hneg.2.1 hneg.2.2 (hbind.trans (bind_error hy))
  · rw [Ensures, hx] at hpos
    refine .of_error h hc hx hpos.1 hpos.2.1 hpos.2.2 ?_
    show (Build.mk m.varNum NodeId.bot NodeId.top >>= _) m = _
    exact bind_error hx

theorem Adds.addVariables (h : Extending m₀ m) (count : Nat) : Adds m₀ m (addVariables count) := by
  induction count generalizing m with
  | zero => exact h
  | succ n ih => exact (Adds.addVariable h).bind fun _ h' => ih h'

end Build

namespace Manager

variable {m₀ m m' : Manager} {R : NodeId → Prop}

/-! ### The end of the call -/

/-- Every entry of the identity is the positive literal of a variable, or no variable is there. -/
theorem mem_identity (horder : m.order.Valid) (hsize : m.literals.size = m.varNum) {id : NodeId}
    (h : id ∈ m.identity) : ∃ p ∈ m.literals, id = p.1 := by
  obtain ⟨l, hl⟩ := Array.mem_iff_getElem?.mp h
  obtain ⟨v, -, hpositive⟩ := getElem?_identity horder hsize hl
  obtain ⟨p, hp, rfl⟩ := Option.map_eq_some_iff.mp hpositive
  exact ⟨p, Array.mem_of_getElem? hp, rfl⟩

/-- Only the terminals have other records. -/
theorem diagram_settle (m : Manager) : m.settle.diagram = m.diagram := Store.diagram_setTerminalLevel _ _

/-- The new entries of the pairings are literals, so no other nodes are named. -/
theorem rooted_settle (horder : m.order.Valid) (hsize : m.literals.size = m.varNum) {id : NodeId}
    (hid : m.settle.Rooted id) : m.Rooted id := by
  rcases hid with hid | hid | hid | hid | hid
  · cases hid
  · exact .inr (.inl hid)
  · exact .inr (.inr (.inl hid))
  · exact .inr (.inr (.inr (.inl hid)))
  · rcases Pairings.mem_nodes_extend hid with hid | hid
    · exact .inr (.inr (.inr (.inr hid)))
    · obtain ⟨p, hp, rfl⟩ := mem_identity horder hsize hid
      exact .inr (.inr (.inr (.inl ⟨p, hp, .inl rfl⟩)))

theorem retains_settle (R : NodeId → Prop) (horder : m.order.Valid)
    (hsize : m.literals.size = m.varNum) (auto : AutoReorder) :
    m.Retains R (settle { m with auto }) := by
  have hauto : m.Carries none { m with auto } := .of_eq rfl rfl rfl
  refine ⟨Nat.le_refl _, fun hp => hp, fun hid => ?_, ?_, fun {id a b} _ hb => ?_⟩
  · exact hid.imp_right fun h => h.imp_right (Pairings.mem_nodes_extend_of_mem _)
  · exact hauto.trans (.settle horder hsize) fun hp => hp
  · rw [Value, diagram_settle]
    exact hb

theorem follows_settle {bound : Nat} (hc : m.Coherent bound) (auto : AutoReorder) :
    m.Follows (settle { m with auto }) := by
  have hdiagram : (settle { m with auto }).diagram = m.diagram := diagram_settle _
  refine ⟨Nat.le_refl _, fun hp => hp, fun hid _ hb => ?_⟩
  have hlive := hc.rooted hid.rooted
  exact (eval_congr (fun _ => hc.reduced.child_live) (fun _ h => h)
    (fun _ _ => congrFun hdiagram _) rfl hc.store (hc.store.setTerminalLevel _) hlive).trans hb

theorem terminalsAt_setTerminalLevel {store : Store} (hs : store.Valid) (level : Level) :
    (store.setTerminalLevel level).TerminalsAt level := by
  intro id ht
  have hlt : id < store.nodes.size := hs.lt (hs.terminal id ht)
  refine ⟨{ store.nodes[id] with level }, ?_, rfl⟩
  rw [Store.node?_setTerminalLevel, if_pos ht, Store.node?, Array.getElem?_eq_getElem hlt]
  rfl

theorem aligned_settle {n : Nat} (horder : m.order.Valid) (hsize : m.literals.size = m.varNum)
    (hfits : m.pairings.Fits n) (hn : n ≤ m.varNum) : m.settle.Aligned :=
  ⟨horder, hsize, hfits.extend hn Array.size_map⟩

theorem Extending.settle (h : Extending m₀ m) : m.settle.Ready := by
  have haligned := aligned_settle h.order h.literals_size h.fits h.retains.varNum
  refine ⟨⟨⟨h.store.setTerminalLevel _, ?_, ?_, fun {id} hid => ?_, ?_, h.error⟩, h.order,
    terminalsAt_setTerminalLevel h.store _, h.literals_size, fun hp hl => ?_,
    haligned.pairings⟩, rfl, h.operands⟩
  · rw [diagram_settle]
    exact h.reduced
  · exact h.table.congr rfl (diagram_settle m)
  · rw [diagram_settle]
    exact h.rooted (rooted_settle h.order h.literals_size hid)
  · -- The counts are gone, for the terminals move, and the pairings stay as far as they matter.
    rw [diagram_settle]
    exact h.computed.clearCounts.renews (.extend h.fits _)
  · rw [diagram_settle]
    exact h.literals hp hl

theorem Ready.extending (h : m.Ready) : Extending m m :=
  ⟨h.toCoherent, h.order, h.terminals, h.literals_size, h.literals, rfl, h.pairings,
    h.pending, h.operands, .refl _ m⟩

/-- New variables are added with nothing pending, and no reordering can start meanwhile. -/
theorem Ready.extendable (hm : m.Ready) : Ready { m with pending := [], auto := m.auto.disable } :=
  ⟨(hm.toSound.equip fun _ hid => hm.rooted (.inr (.inl hid))).setAuto _, rfl, hm.operands⟩

theorem Extending.setAuto (h : Extending m₀ m) (auto : AutoReorder) : Extending m₀ { m with auto } :=
  ⟨⟨h.store, h.reduced, h.table, h.rooted, h.computed, h.error⟩, h.order, h.terminals, h.literals_size,
    h.literals, h.pairings, h.fits, h.pending, h.operands,
    h.retains.trans (.of_eq rfl rfl rfl rfl rfl)⟩

end Manager

namespace Action

variable {α : Type} {m : Manager}

/-- All named nodes evaluate as before when there are new variables, even if the store runs full on
the way.  Otherwise the manager is ready for the next call. -/
theorem Ensures.addVariables (hm : m.Ready) (count : Nat) :
    Ensures m (addVariables count) (fun _ m' => Completes m [] m')
      fun e m' => e = .nodeLimit ∧ m.Passes none m' := by
  have hadds := Build.Adds.addVariables hm.extendable.extending count
  have hstart : m.Retains (fun _ => False) { m with pending := [], auto := m.auto.disable } :=
    .of_eq rfl rfl rfl rfl rfl
  unfold Ensures Manager.addVariables
  rcases hx : Build.addVariables count { m with pending := [], auto := m.auto.disable } with
    ⟨_, m'⟩ | ⟨i, m'⟩
  · rw [Build.Adds, hx] at hadds
    have h := hadds.setAuto m'.auto.enable
    have hr := hstart.trans h.retains
    exact ⟨h.settle, (hr.trans (retains_settle _ h.order h.literals_size _)).mono (by simp)⟩
  · rw [Build.Adds, hx] at hadds
    obtain ⟨hi, m₁, h, he, hc⟩ := hadds
    have hr : m.Retains (fun _ => False) m₁ := hstart.trans h.retains
    have hn := he.retains (R := fun _ => False) fun _ => False.elim
    rcases hi with rfl | rfl
    · -- What was added before the store ran full is complete.
      have horder : m'.order.Valid := he.order.symm ▸ h.order
      have hsize : m'.literals.size = m'.varNum := by
        rw [he.literals, he.varNum]
        exact h.literals_size
      have hend := (hr.trans hn).trans (retains_settle _ horder hsize m'.auto.enable)
      refine ⟨rfl, ?_, hend.carries, aligned_settle (n := m.varNum) horder
        hsize (he.pairings.symm ▸ h.fits) (he.varNum.symm ▸ h.retains.varNum)⟩
      refine (hr.follows hm.toCoherent hm.order h.toCoherent h.order).trans (fun _ => hr.named) ?_
      exact (he.follows h.toCoherent hc).trans (fun _ => hn.named) (follows_settle hc _)
    · trivial

/-- What a request for more variables ensures. -/
def Extends (x : Action α) : Prop :=
  ∀ m : Manager, m.Ready → Ensures m x (fun _ m' => Completes m [] m')
    fun e m' => m.Passes none m' ∧ (e ≠ .nodeLimit → m'.Ready)

theorem Safe.extends {x : Action α} (hx : Safe x) : Extends x := fun m hm =>
  (hx m hm).mono (fun _ _ h => h) fun _ _ h => ⟨h.passes hm none, fun _ => h.ready⟩

theorem Extends.setVarNum (num : Nat) : Extends (setVarNum num) := by
  intro m hm
  refine .get ?_
  dsimp only
  split
  · exact (Safe.fail _).extends m hm
  · split
    · exact (Safe.fail _).extends m hm
    · split
      · exact (Safe.pure _).extends m hm
      · refine (Ensures.addVariables hm _).mono (fun _ _ h => h) ?_
        rintro e m' ⟨rfl, hr⟩
        exact ⟨hr, fun hne => absurd rfl hne⟩

theorem Extends.extVarNum (extra : Nat) : Extends (extVarNum extra) := by
  intro m hm
  refine .get ?_
  dsimp only
  split
  · exact (Safe.fail _).extends m hm
  · exact (Extends.setVarNum _ m hm).bind fun _ _ h => .pure h

end Action

end DecisionDiagram
