/-
The steps that operators are made of.

`Build.Ensures` is the specification of a piece of work within an operator: it ends without a
fault, the manager evolves and stays coherent, also if the work is interrupted, and a result
satisfies the postcondition.

* `Build.Ensures.mk` — `mk` answers the node with the record (`Diagram.Made`), whatever happens on
  the way;
* `Build.mk_error` — it fails for want of room, or because a reordering is due;
* `Interrupt.Regular` — the ways in which an operator may break off.
-/
import DecisionDiagram.Build
import DecisionDiagram.Proofs.Collection

namespace DecisionDiagram

namespace Manager

variable {m m' : Manager} {bound : Nat}

theorem Coherent.setPending (hm : m.Coherent bound) {pending : List NodeId}
    (hp : ∀ x ∈ pending, m.diagram.Live x) : Coherent { m with pending } bound where
  store := hm.store
  reduced := hm.reduced
  table := hm.table
  rooted hid := by
    rcases hid with hid | hid
    · exact hp _ hid
    · exact hm.rooted (.inr hid)
  computed := hm.computed
  error := hm.error

theorem Coherent.setComputed {bound : Nat} (hm : m.Coherent bound) {computed : ComputedTable}
    (hc : computed.Sound m.diagram m.pairings m.store.TerminalsAt) :
    Coherent { m with computed } bound :=
  ⟨hm.store, hm.reduced, hm.table, hm.rooted, hc, hm.error⟩

theorem evolves_setComputed (m : Manager) (computed : ComputedTable) :
    m.Evolves { m with computed } :=
  ⟨⟨rfl, rfl, rfl, rfl, rfl, rfl, rfl, rfl⟩, List.Subset.refl _, fun _ => rfl, fun _ _ => rfl⟩

/-! ### Operands -/

/-- The node is an operand at or below level `k`. -/
structure Operand (m : Manager) (k : Level) (f : NodeId) : Prop where
  kept : m.Kept f
  under : m.diagram.Under id k f
  le : k ≤ m.varNum

/-- `n` is the record of `f`, as far as an operator depends on it. -/
structure Reads (m : Manager) (f : NodeId) (n : Node) : Prop where
  terminal : f.isTerminal = true → n.level = m.varNum
  inner : f.isTerminal = false → m.diagram f = some n

variable {k : Level} {f : NodeId} {n : Node}

theorem Operand.live (h : m.Operand k f) : m.diagram.Live f := h.under.live

theorem Operand.evolves (h : m.Operand k f) (he : m.Evolves m') : m'.Operand k f :=
  ⟨he.of_kept h.kept, he.under h.kept h.under, he.varNum ▸ h.le⟩

theorem Reads.evolves (h : m.Reads f n) (he : m.Evolves m') (hf : m.Kept f) : m'.Reads f n :=
  ⟨fun ht => (h.terminal ht).trans he.varNum.symm, fun ht => (he.kept f hf).trans (h.inner ht)⟩

theorem Operand.mono (h : m.Operand k f) {l : Level} (hl : l ≤ k) : m.Operand l f :=
  ⟨h.kept, h.under.mono hl, Nat.le_trans hl h.le⟩

theorem Operand.terminal (ht : f.isTerminal = true) (hk : k ≤ m.varNum) : m.Operand k f :=
  ⟨kept_of_terminal ht, .inl ht, hk⟩

theorem Coherent.operand (h : m.Coherent bound) (hf : m.Kept f) : m.Operand 0 f :=
  ⟨hf, (h.kept_live hf).under, Nat.zero_le _⟩

theorem Sound.exists_reads (h : m.Sound) (hf : m.diagram.Live f) :
    ∃ n, m.node f = .ok n ∧ m.Reads f n := by
  by_cases ht : f.isTerminal = true
  · obtain ⟨n, hn, hl⟩ := h.terminals f ht
    refine ⟨n, by rw [node, hn], fun _ => hl, fun hf => ?_⟩
    rw [ht] at hf
    cases hf
  · have ht := Bool.eq_false_iff.mpr ht
    obtain ⟨n, hn⟩ := hf.eq_some ht
    refine ⟨n, by rw [node, Store.node?_of_diagram hn], fun hf => ?_, fun _ => hn⟩
    rw [ht] at hf
    cases hf

theorem Reads.level_le (h : m.Reads f n) (hm : m.Sound) : n.level ≤ m.varNum := by
  by_cases ht : f.isTerminal = true
  · exact Nat.le_of_eq (h.terminal ht)
  · exact Nat.le_of_lt (hm.reduced.label_lt (h.inner (Bool.eq_false_iff.mpr ht)))

theorem Reads.inner_of_lt (h : m.Reads f n) (hlt : n.level < m.varNum) :
    f.isTerminal = false := by
  rw [Bool.eq_false_iff]
  intro ht
  have := h.terminal ht
  lia

theorem Reads.diagram_eq (h : m.Reads f n) (hlt : n.level < m.varNum) : m.diagram f = some n :=
  h.inner (h.inner_of_lt hlt)

theorem Reads.lt (h : m.Reads f n) (hm : m.Sound) (ht : f.isTerminal = false) :
    n.level < m.varNum := hm.reduced.label_lt (h.inner ht)

theorem Reads.le (h : m.Reads f n) (hk : m.diagram.Under id k f) (hle : k ≤ m.varNum) :
    k ≤ n.level := by
  by_cases ht : f.isTerminal = true
  · rw [h.terminal ht]
    exact hle
  · have ht := Bool.eq_false_iff.mpr ht
    exact hk.le ht (h.inner ht)

theorem Operand.le_level (hf : m.Operand k f) (h : m.Reads f n) : k ≤ n.level :=
  h.le hf.under hf.le

/-- An operand stands as low as its record says. -/
theorem Operand.lower {level : Level} (hf : m.Operand k f) (hm : m.Sound)
    (h : m.Reads f n) (hle : level ≤ n.level) : m.Operand level f := by
  have hvar := h.level_le hm
  refine ⟨hf.kept, ?_, by lia⟩
  by_cases ht : f.isTerminal = true
  · exact .inl ht
  · exact .inr ⟨n, h.inner (Bool.eq_false_iff.mpr ht), hle⟩

/-- A child of an operand is an operand below the level of its parent. -/
theorem Operand.child (hf : m.Operand k f) (hm : m.Sound) (hn : m.diagram f = some n) (b : Bool) :
    m.Operand (n.level + 1) (n.child b) :=
  ⟨hf.kept.child hn b, hm.reduced.below hn b, hm.reduced.label_lt hn⟩

variable {level : Level}

theorem Operand.cofactor (hf : m.Operand k f) (hm : m.Sound) (h : m.Reads f n)
    (hle : level ≤ n.level) (hlt : level < m.varNum) (b : Bool) :
    m.Operand (level + 1) (n.cofactor f level b) := by
  unfold Node.cofactor
  split
  · rename_i heq
    subst heq
    exact hf.child hm (h.diagram_eq hlt) b
  · refine ⟨hf.kept, ?_, hlt⟩
    by_cases ht : f.isTerminal = true
    · exact .inl ht
    · exact .inr ⟨n, h.inner (Bool.eq_false_iff.mpr ht), by simp only [id]; lia⟩

end Manager

/-! ### Specifications -/

/-- The ways in which an operator may break off: a reordering is due, there is no room, or a renaming
would break the order.  No check of arguments reports any of these. -/
inductive Interrupt.Regular : Interrupt → Prop
  | reorder : Regular .reorder
  | nodeLimit : Regular (.error .nodeLimit)
  | replaceConflict : Regular (.error .replaceConflict)

theorem Interrupt.Regular.ne_fault {i : Interrupt} (h : i.Regular) : i ≠ Interrupt.fault := by
  cases h <;> nofun

open Manager

namespace Build

variable {α β : Type} {bound : Nat} {m₀ m m' : Manager}

/-- The work `x`, done in `m`, ends without a fault in a coherent manager that evolved from `m₀`, even
if it breaks off; if it ends with a result, this and the manager satisfy `Q`. -/
def Ensures (bound : Nat) (m₀ m : Manager) (x : Build α) (Q : α → Manager → Prop) : Prop :=
  match x m with
  | .ok a m' => m₀.Evolves m' ∧ m'.Coherent bound ∧ Q a m'
  | .error i m' => i.Regular ∧ m₀.Evolves m' ∧ m'.Coherent bound

theorem Ensures.of_ok {x : Build α} {Q : α → Manager → Prop} {a : α} (h : x m = .ok a m')
    (he : m₀.Evolves m') (hc : m'.Coherent bound) (hQ : Q a m') : Ensures bound m₀ m x Q := by
  rw [Ensures, h]
  exact ⟨he, hc, hQ⟩

theorem Ensures.of_error {x : Build α} {Q : α → Manager → Prop} {i : Interrupt}
    (h : x m = .error i m') (hi : i.Regular) (he : m₀.Evolves m') (hc : m'.Coherent bound) :
    Ensures bound m₀ m x Q := by
  rw [Ensures, h]
  exact ⟨hi, he, hc⟩

theorem Ensures.congr {x y : Build α} {Q : α → Manager → Prop} (h : Ensures bound m₀ m' y Q)
    (hxy : x m = y m') : Ensures bound m₀ m x Q := by
  rw [Ensures, hxy]
  exact h

theorem bind_ok {x : Build α} {f : α → Build β} {a : α} (h : x m = .ok a m') :
    (x >>= f) m = f a m' := by
  show EStateM.bind x f m = _
  rw [EStateM.bind, h]

theorem bind_error {x : Build α} {f : α → Build β} {i : Interrupt} (h : x m = .error i m') :
    (x >>= f) m = .error i m' := by
  show EStateM.bind x f m = _
  rw [EStateM.bind, h]

theorem Ensures.bind {x : Build α} {f : α → Build β} {Q : α → Manager → Prop}
    {R : β → Manager → Prop} (h : Ensures bound m₀ m x Q)
    (hf : ∀ a m', m₀.Evolves m' → m'.Coherent bound → Q a m' → Ensures bound m₀ m' (f a) R) :
    Ensures bound m₀ m (x >>= f) R := by
  rcases hx : x m with ⟨a, m'⟩ | ⟨i, m'⟩
  · rw [Ensures, hx] at h
    exact (hf a m' h.1 h.2.1 h.2.2).congr (bind_ok hx)
  · rw [Ensures, hx] at h
    exact .of_error (bind_error hx) h.1 h.2.1 h.2.2

theorem Ensures.mono {x : Build α} {Q R : α → Manager → Prop} (h : Ensures bound m₀ m x Q)
    (hQR : ∀ a m', m₀.Evolves m' → m'.Coherent bound → Q a m' → R a m') :
    Ensures bound m₀ m x R := by
  unfold Ensures at h ⊢
  split
  · rename_i a m' hx
    rw [hx] at h
    exact ⟨h.1, h.2.1, hQR a m' h.1 h.2.1 h.2.2⟩
  · rename_i i m' hx
    rw [hx] at h
    exact h

/-- What is ensured from the current manager is ensured from an earlier one. -/
theorem Ensures.rebase {x : Build α} {Q : α → Manager → Prop} (h : Ensures bound m m x Q)
    (he : m₀.Evolves m) : Ensures bound m₀ m x fun a m' => m.Evolves m' ∧ Q a m' := by
  unfold Ensures at h ⊢
  split
  · rename_i a m' hx
    rw [hx] at h
    exact ⟨he.trans h.1, h.2.1, h.1, h.2.2⟩
  · rename_i i m' hx
    rw [hx] at h
    exact ⟨h.1, he.trans h.2.1, h.2.2⟩

/-! ### Pending nodes -/

theorem Ensures.push {f : NodeId} (he : m₀.Evolves m) (hc : m.Coherent bound)
    (hf : m.diagram.Live f) :
    Ensures bound m₀ m (push f) fun _ m' => m' = { m with pending := f :: m.pending } := by
  refine .of_ok (a := ()) rfl ?_ ?_ rfl
  · exact he.setPending fun x hx => List.mem_cons_of_mem _ (he.pending hx)
  · exact hc.setPending fun x hx => by
      rcases List.mem_cons.mp hx with rfl | hx
      · exact hf
      · exact hc.rooted (.inl hx)

theorem pop_eq {f : NodeId} {rest : List NodeId} (hp : m.pending = f :: rest) :
    pop m = .ok () { m with pending := rest } := by
  refine (bind_ok (x := get) (a := m) rfl).trans ?_
  rw [hp]
  rfl

theorem pop_eq_fault (hp : m.pending = []) : pop m = .error Interrupt.fault m := by
  refine (bind_ok (x := get) (a := m) rfl).trans ?_
  rw [hp]
  rfl

theorem Ensures.pop {f : NodeId} {rest : List NodeId} (he : m₀.Evolves m)
    (hc : m.Coherent bound) (hp : m.pending = f :: rest) (hsub : m₀.pending ⊆ rest) :
    Ensures bound m₀ m pop fun _ m' => m' = { m with pending := rest } := by
  refine .of_ok (pop_eq hp) (he.setPending hsub) ?_ rfl
  exact hc.setPending fun x hx => hc.rooted (.inl (hp ▸ List.mem_cons_of_mem _ hx))

/-! ### Making a node -/

section Make

variable {n : Node}

/-- A record that no node has yet, and that a node may have. -/
structure Fresh (m : Manager) (bound : Nat) (n : Node) : Prop where
  level_lt : n.level < bound
  low_ne_high : n.low ≠ n.high
  kept : ∀ b, m.Kept (n.child b)
  under : ∀ b, m.diagram.Under id (n.level + 1) (n.child b)
  new : ∀ j, m.diagram j ≠ some n

theorem Fresh.collected (h : Fresh m bound n) (hc : m.Collected m') : Fresh m' bound n where
  level_lt := h.level_lt
  low_ne_high := h.low_ne_high
  kept b := hc.evolves.of_kept (h.kept b)
  under b := hc.evolves.under (h.kept b) (h.under b)
  new j := by
    by_cases hj : m.Kept j
    · rw [hc.kept j hj]
      exact h.new j
    · rw [hc.dropped j hj]
      exact (Option.some_ne_none n).symm

theorem Fresh.grown (h : Fresh m bound n) (hg : m.Grown m') : Fresh m' bound n where
  level_lt := h.level_lt
  low_ne_high := h.low_ne_high
  kept b := hg.evolves.of_kept (h.kept b)
  under b := hg.evolves.under (h.kept b) (h.under b)
  new j := by
    rw [hg.diagram]
    exact h.new j

/-- The manager `m'` is `m` with a new node in the slot `f`, the lowest free one. -/
structure Created (m : Manager) (f : NodeId) (n : Node) (m' : Manager) : Prop
    extends SameFrame m m' where
  slot : m.store.slots.next? = some f
  diagram : m'.diagram = Function.update m.diagram f (some n)
  terminals : ∀ {id : NodeId}, id.isTerminal = true → m'.store.node? id = m.store.node? id
  capacity : m'.store.capacity = m.store.capacity
  pending : m'.pending = m.pending
  computed : m'.computed = m.computed
  error : m'.error = m.error

variable {f : NodeId}

/-- A new node is none of the live ones. -/
theorem Created.ne (h : Created m f n m') (hm : m.Shared bound) {id : NodeId}
    (hid : m.diagram.Live id) : id ≠ f :=
  hid.ne_of_fresh (hm.store.next?_inner h.slot) (Store.diagram_next? h.slot)

theorem Created.other (h : Created m f n m') (hm : m.Shared bound) {id : NodeId}
    (hid : m.diagram.Live id) : m'.diagram id = m.diagram id := by
  rw [h.diagram, Function.update_of_ne (h.ne hm hid)]

theorem Created.evolves (h : Created m f n m') (hm : m.Shared bound) : m.Evolves m' where
  toSameFrame := h.toSameFrame
  pending := by
    rw [h.pending]
    exact List.Subset.refl _
  terminals := h.terminals
  kept id hid := h.other hm (hm.kept_live hid)

/-- A node with a new record takes the lowest free slot, and the vacancy of the unique table. -/
theorem exists_create (hm : m.Shared bound) (hn : Fresh m bound n) {slot : Nat}
    (hf : m.store.slots.next? = some f)
    (hslot : m.table.find m.store.nodes n = some (.vacant slot)) :
    ∃ m', create f n slot m = .ok f m' ∧ Created m f n m' ∧ m'.Shared bound := by
  have hdiagram : (m.store.put f n).diagram = Function.update m.diagram f (some n) :=
    hm.store.diagram_put hf n
  have hinner : f.isTerminal = false := hm.store.next?_inner hf
  have hcreated : Created m f n { m with
      store := m.store.put f n
      table := m.table.insertAt slot f
      counters := { m.counters with produced := m.counters.produced + 1 } } := by
    refine ⟨⟨rfl, rfl, rfl, rfl, rfl, rfl, rfl, rfl⟩, hf, hdiagram, fun {x} hx => ?_, rfl, rfl, rfl, rfl⟩
    show (m.store.put f n).node? x = _
    rw [Store.node?_put (hm.store.arena ▸ hm.store.next?_lt hf), if_neg]
    rintro rfl
    rw [hinner] at hx
    cases hx
  refine ⟨_, rfl, hcreated, hm.store.put hf n, ?_, hm.table.put hm.store hf hslot, fun {x} hx => ?_⟩
  · rw [hcreated.diagram]
    exact hm.reduced.insert hinner (Store.diagram_next? hf) hn.level_lt hn.low_ne_high hn.under hn.new
  · exact (hm.rooted hx).congr (hcreated.other hm (hm.rooted hx))

theorem Ensures.create (hm : m.Coherent bound) (hn : Fresh m bound n) {slot : Nat}
    (hf : m.store.slots.next? = some f)
    (hslot : m.table.find m.store.nodes n = some (.vacant slot)) :
    Ensures bound m m (create f n slot) fun res m' =>
      m'.pending = m.pending ∧ m'.diagram res = some n := by
  obtain ⟨m', hcreate, hc, hs⟩ := exists_create hm.shared hn hf hslot
  refine .of_ok hcreate (hc.evolves hm.shared) ⟨hs.store, hs.reduced, hs.table, hs.rooted, ?_, ?_⟩
    ⟨hc.pending, by rw [hc.diagram, Function.update_self]⟩
  · rw [hc.computed, hc.pairings]
    refine hm.computed.mono hm.reduced hs.reduced (fun _ hc => hm.reduced.child_live hc)
      (fun x hx => hx) (fun x hx => hc.other hm.shared hx) (fun _ => hm.pairings_live)
      fun d hd x hx => ?_
    rw [← hc.terminals hx]
    exact hd x hx
  · rw [hc.error]
    exact hm.error

theorem Ensures.createAnew (hm : m.Coherent bound) (hn : Fresh m bound n) :
    Ensures bound m m (createAnew n) fun res m' =>
      m'.pending = m.pending ∧ m'.diagram res = some n := by
  rcases hf : m.store.slots.next? with _ | f
  · have hfull : Build.createAnew n m =
        .error (Interrupt.error .nodeLimit) { m with error := some .nodeLimit } := by
      simp only [Build.createAnew, hf]
    refine .of_error hfull .nodeLimit ?_ ?_
    · exact ⟨⟨rfl, rfl, rfl, rfl, rfl, rfl, rfl, rfl⟩, List.Subset.refl _, fun _ => rfl,
        fun _ _ => rfl⟩
    · exact ⟨hm.store, hm.reduced, hm.table, hm.rooted, hm.computed, .inr rfl⟩
  · obtain ⟨r, hr⟩ := hm.table.exists_find hm.store n
    cases r with
    | found j => exact absurd (hm.table.of_found hr) (hn.new j)
    | vacant slot =>
      refine (Ensures.create hm hn hf hr).congr ?_
      simp only [Build.createAnew, hf, hr]

theorem Ensures.createInFull (hm : m.Coherent bound) (hn : Fresh m bound n) :
    Ensures bound m m (createInFull n) fun res m' =>
      m'.pending = m.pending ∧ m'.diagram res = some n := by
  obtain ⟨freed, m₁, hcollect, hc⟩ := exists_collect hm.store hm.reduced
    fun r hr => hm.rooted (mem_rootNodes.mp hr).2
  have hm₁ := hm.collected hc
  have hn₁ := hn.collected hc
  by_cases hready : (decide (m₁.auto.threshold ≤ m₁.store.usedCount) && m₁.reorderReady) = true
  · refine .of_error ?_ .reorder hc.evolves hm₁
    simp only [Build.createInFull, hcollect, if_pos hready]
  · by_cases htight : isTight m₁ = true
    · obtain ⟨m₂, hgrow, hg⟩ := exists_grow hm₁.shared
      have he := hc.evolves.trans hg.evolves
      refine (((Ensures.createAnew (hm₁.grown hg) (hn₁.grown hg)).rebase he).mono ?_).congr ?_
      · rintro res m' - - ⟨-, hp, hres⟩
        exact ⟨hp.trans (hg.pending.trans hc.pending), hres⟩
      · simp only [Build.createInFull, hcollect, if_neg hready, if_pos htight, hgrow]
    · refine (((Ensures.createAnew hm₁ hn₁).rebase hc.evolves).mono ?_).congr ?_
      · rintro res m' - - ⟨-, hp, hres⟩
        exact ⟨hp.trans hc.pending, hres⟩
      · simp only [Build.createInFull, hcollect, if_neg hready, if_neg htight]

/-- Making a node answers the node with the record, after a collection or a growth step if need
be. -/
theorem Ensures.mk (hm : m.Coherent bound) {level : Level} {l h : NodeId} (hlevel : level < bound)
    (hl : m.Kept l) (hh : m.Kept h) (ul : m.diagram.Under id (level + 1) l)
    (uh : m.diagram.Under id (level + 1) h) :
    Ensures bound m m (mk level l h) fun res m' =>
      m'.pending = m.pending ∧ Diagram.Made level l h m'.diagram res := by
  by_cases heq : l = h
  · refine .of_ok (a := l) ?_ (.refl m) hm ⟨rfl, ?_⟩
    · rw [Build.mk, if_pos heq]
    · rw [Diagram.Made, if_pos heq]
  · have hmade : ∀ {g : Diagram} {res}, g res = some ⟨level, l, h⟩ →
        Diagram.Made level l h g res := by
      intro g res hres
      rwa [Diagram.Made, if_neg heq]
    obtain ⟨r, hr⟩ := hm.table.exists_find hm.store ⟨level, l, h⟩
    cases r with
    | found f =>
      refine .of_ok (a := f) ?_ (.refl m) hm ⟨rfl, hmade (hm.table.of_found hr)⟩
      simp only [Build.mk, if_neg heq, hr]
    | vacant slot =>
      -- The record is not in the table, so that a node may be made for it.
      have hn : Fresh m bound ⟨level, l, h⟩ := by
        refine ⟨hlevel, heq, ?_, ?_, hm.table.of_vacant hr⟩
        · intro b
          cases b
          · exact hl
          · exact hh
        · intro b
          cases b
          · exact ul
          · exact uh
      have made : ∀ {x : Build NodeId}, Build.mk level l h m = x m →
          (Ensures bound m m x fun res m' =>
            m'.pending = m.pending ∧ m'.diagram res = some ⟨level, l, h⟩) →
          Ensures bound m m (Build.mk level l h) fun res m' =>
            m'.pending = m.pending ∧ Diagram.Made level l h m'.diagram res := by
        intro x hx hens
        exact (hens.mono fun res m' _ _ hres => ⟨hres.1, hmade hres.2⟩).congr hx
      rcases herr : m.error with _ | e
      · rcases hnext : m.store.slots.next? with _ | f
        · refine made ?_ (Ensures.createInFull hm hn)
          simp only [Build.mk, if_neg heq, hr, herr, hnext]
        · refine made ?_ (Ensures.create hm hn hnext hr)
          simp only [Build.mk, if_neg heq, hr, herr, hnext]
      · -- After a failure no node is made any more.
        obtain rfl : .nodeLimit = e := by
          rcases hm.error with hnone | hfull
          · cases hnone.symm.trans herr
          · exact Option.some.inj (hfull.symm.trans herr)
        refine .of_error ?_ .nodeLimit (.refl m) hm
        simp only [Build.mk, if_neg heq, hr, herr, Interrupt.error]

end Make

variable {n : Node} {i : Interrupt}

/-! ### How making a node fails -/

theorem createAnew_error (h : createAnew n m = .error i m') :
    i = Interrupt.fault ∨ i = Interrupt.error .nodeLimit := by
  unfold createAnew at h
  split at h
  · exact .inr (EStateM.Result.error.inj h).1.symm
  · split at h
    · cases h
    · exact .inl (EStateM.Result.error.inj h).1.symm

/-- An operator is interrupted only when a reordering may start. -/
theorem createInFull_error (hm : m.Coherent bound) (h : createInFull n m = .error i m') :
    i = Interrupt.fault ∨ i = Interrupt.error .nodeLimit ∨
      i = Interrupt.reorder ∧ m.reorderReady = true := by
  obtain ⟨freed, m₁, hcollect, hc⟩ := exists_collect hm.store hm.reduced
    fun r hr => hm.rooted (mem_rootNodes.mp hr).2
  simp only [createInFull, hcollect] at h
  split at h
  · rename_i hready
    obtain ⟨rfl, -⟩ := EStateM.Result.error.inj h
    have hready := (Bool.and_eq_true_iff.mp hready).2
    rw [reorderReady, varNum, hc.auto, hc.order] at hready
    exact .inr (.inr ⟨rfl, hready⟩)
  · split at h
    · split at h
      · exact .inl (EStateM.Result.error.inj h).1.symm
      · exact (createAnew_error h).imp_right .inl
    · exact (createAnew_error h).imp_right .inl

theorem mk_error (hm : m.Coherent bound) {level : Level} {l r : NodeId}
    (h : Build.mk level l r m = .error i m') :
    i = Interrupt.fault ∨ i = Interrupt.error .nodeLimit ∨
      i = Interrupt.reorder ∧ m.reorderReady = true := by
  unfold Build.mk at h
  split at h
  · cases h
  · split at h
    · exact .inl (EStateM.Result.error.inj h).1.symm
    · cases h
    · split at h
      · rename_i e he
        obtain ⟨rfl, -⟩ := EStateM.Result.error.inj h
        rcases hm.error with hn | hs
        · rw [hn] at he
          cases he
        · obtain rfl := Option.some.inj (hs.symm.trans he)
          exact .inr (.inl rfl)
      · split at h
        · cases h
        · exact createInFull_error hm h

end Build

end DecisionDiagram
