/-
What the computed tables may hold.

An entry is right if the nodes that it mentions are live, and the tree of the result is the one that
the recursion gives for the trees of the operands (`Query.Tells`). The result of a substitution by a
pairing is right for the pairing that has the stamp of the entry, as long as the stamps have not run
out. A count is right for the level of the terminals.

* `Query.Right.congr` — an answer stays right where the diagram stays as it is below the operands,
  the pairings and the answer;
* `ComputedTable.Sound` — every entry of every table is right;
* `ComputedTable.Sound.find?` — and so is what a look-up answers;
* `ComputedTable.Sound.insert`, `.clean`, `.clear` — the updates of the tables keep them sound.
-/
import Mathlib.Algebra.Group.Nat.Defs
import DecisionDiagram.Counting
import DecisionDiagram.Proofs.Tree.Quantify
import DecisionDiagram.Proofs.Tree.Substitute
import DecisionDiagram.Proofs.Unfolding

namespace DecisionDiagram

/-! ### Entries of a cache -/

namespace Cache

variable {κ ν : Type} {c : Cache κ ν} {k j : κ} {v w : ν}

/-- The cache has the entry in one of its slots. -/
def Holds (c : Cache κ ν) (k : κ) (v : ν) : Prop := ∃ i : Nat, c.entries[i]? = some (some (k, v))

theorem not_holds_replicate {hits misses faults n : Nat} :
    ¬ Holds (⟨Array.replicate n none, hits, misses, faults⟩ : Cache κ ν) k v := by
  rintro ⟨i, hi⟩
  rw [Array.getElem?_replicate] at hi
  split at hi <;> cases hi

theorem Holds.of_retain {keep : κ → ν → Bool} (h : (c.retain keep).Holds k v) :
    c.Holds k v ∧ keep k v = true := by
  obtain ⟨i, hi⟩ := h
  rw [retain, Array.getElem?_map, Option.map_eq_some_iff] at hi
  obtain ⟨entry, hi, hentry⟩ := hi
  obtain ⟨rfl, hkeep⟩ := Option.filter_eq_some_iff.mp hentry
  exact ⟨⟨i, hi⟩, hkeep⟩

variable [CacheKey κ]

theorem Holds.of_insert (h : (c.insert j w).Holds k v) : (k = j ∧ v = w) ∨ c.Holds k v := by
  obtain ⟨i, hi⟩ := h
  rw [insert, Array.getElem?_setIfInBounds] at hi
  split at hi
  · split at hi
    · simp only [Option.some.injEq, Prod.mk.injEq] at hi
      exact .inl ⟨hi.1.symm, hi.2.symm⟩
    · cases hi
  · exact .inr ⟨i, hi⟩

variable [DecidableEq κ]

theorem holds_of_find? (h : c.find? k = some v) : c.Holds k v := by
  unfold find? at h
  split at h
  · rename_i k' v' hi
    split at h
    · rename_i hk
      obtain rfl := Option.some.inj h
      subst hk
      exact ⟨_, hi⟩
    · cases h
  · cases h

theorem holds_record : (c.record j).Holds k v ↔ c.Holds k v := by
  unfold Holds record
  split
  · split <;> rfl
  · rfl

end Cache

/-! ### Counts of trees -/

namespace Tree

/-- The level that the tree decides first; leaves stand at level `d`. -/
def levelOr (d : Level) (t : Tree) : Level := t.level?.getD d

/-- Satisfying assignments to the levels from that of the tree down to `d`. -/
def satCount (d : Level) : Tree → Float
  | leaf b => if b then 1.0 else 0.0
  | node k l h =>
    branchWeight k (l.levelOr d) * l.satCount d + branchWeight k (h.levelOr d) * h.satCount d

/-- Paths to a leaf for true. -/
def pathCount : Tree → Float
  | leaf b => if b then 1.0 else 0.0
  | node _ l h => l.pathCount + h.pathCount

end Tree

/-! ### Right answers -/

/-- The node that a pairing substitutes at a level. -/
def Pairing.entry (p : Pairing) (k : Level) : NodeId := p.result.getD k NodeId.bot

theorem Pairings.entry_mem {p : Pairings} {e : Pairing} (he : e ∈ p.tables) (k : Level) :
    e.entry k ∈ p.nodes ∨ e.entry k = NodeId.bot := by
  rw [Pairing.entry, Array.getD_eq_getD_getElem?]
  rcases hk : e.result[k]? with _ | x
  · exact .inr rfl
  · refine .inl ?_
    rw [Pairings.nodes, List.mem_flatMap]
    exact ⟨e, Array.mem_toList_iff.mpr he, Array.mem_toList_iff.mpr (Array.mem_of_getElem? hk)⟩

namespace Query

/-- The query is answered by the tree, when the nodes have the given trees. -/
def Tells (tree : NodeId → Tree) (p : Pairings) : Query → Tree → Prop
  | not f, t => t = (tree f).not
  | apply op l r, t => t = Tree.apply op (tree l) (tree r)
  | ite f g h, t => t = Tree.ite (tree f) (tree g) (tree h)
  | quantify q f cube, t => t = Tree.quantifyCube q (tree f) (tree cube)
  | restrict f cube, t => t = Tree.restrict (tree cube).fixes (tree f)
  | applyQuantify q op l r cube, t =>
    t = Tree.quantifyCube q (Tree.apply op (tree l) (tree r)) (tree cube)
  | rename stamp f, t => p.updates < 2 ^ 32 → stamp.toNat ≤ p.updates ∧
    ∀ e ∈ p.tables, e.stamp = stamp → ∃ last, e.last = some last ∧
      Tree.rename (fun k => (tree (e.entry k)).level?) last (tree f) = some t
  | vecCompose stamp f, t => p.updates < 2 ^ 32 → stamp.toNat ≤ p.updates ∧
    ∀ e ∈ p.tables, e.stamp = stamp → ∃ last, e.last = some last ∧
      Tree.vecCompose (fun k => tree (e.entry k)) last (tree f) = t
  | constrain f care, t => t = Tree.constrain (tree f) (tree care)
  | simplify f care, t => t = Tree.simplify (tree f) (tree care)
  | compose level f g, t => t = Tree.compose level (tree f) (tree g)

/-- The node `res` answers the query in the diagram. -/
structure Right (g : Diagram) (p : Pairings) (q : Query) (res : NodeId) : Prop where
  operands : ∀ x ∈ q.nodes, g.Live x
  live : g.Live res
  tells : q.Tells g.tree p (g.tree res)

variable {g g' : Diagram} {bound bound' : Nat} {p : Pairings} {q : Query} {res : NodeId}
  {S : NodeId → Prop} {tree tree' : NodeId → Tree}

theorem Tells.congr {t : Tree} (hq : ∀ x ∈ q.nodes, tree' x = tree x)
    (hp : ∀ e ∈ p.tables, ∀ k, tree' (e.entry k) = tree (e.entry k)) (h : q.Tells tree p t) :
    q.Tells tree' p t := by
  cases q with
  | rename stamp f =>
    intro hu
    obtain ⟨hs, hall⟩ := h hu
    refine ⟨hs, fun e he hstamp => ?_⟩
    obtain ⟨last, hlast, hres⟩ := hall e he hstamp
    refine ⟨last, hlast, ?_⟩
    simp only [hp e he, hq f (by simp [nodes])]
    exact hres
  | vecCompose stamp f =>
    intro hu
    obtain ⟨hs, hall⟩ := h hu
    refine ⟨hs, fun e he hstamp => ?_⟩
    obtain ⟨last, hlast, hres⟩ := hall e he hstamp
    refine ⟨last, hlast, ?_⟩
    simp only [hp e he, hq f (by simp [nodes])]
    exact hres
  | _ =>
    simp only [nodes, List.mem_cons, List.not_mem_nil, or_false, forall_eq_or_imp, forall_eq] at hq
    simp only [Tells] at h ⊢
    simp only [hq]
    exact h

/-- An answer stays right in a diagram that agrees on a closed set around it and the pairings. -/
theorem Right.congr (h : q.Right g p res) (hg : g.Reduced id bound) (hg' : g'.Reduced id bound')
    (hS : g.Closed S) (agree : ∀ id, S id → g' id = g id) (hq : ∀ x ∈ q.nodes, S x)
    (hp : ∀ x ∈ p.nodes, g.Live x ∧ S x) (hres : S res) : q.Right g' p res := by
  have same : ∀ x, g.Live x → S x → g'.tree x = g.tree x := fun x hlive hx =>
    hg.tree_congr hg' hS agree hx hlive
  refine ⟨fun x hx => (h.operands x hx).congr (agree x (hq x hx)), h.live.congr (agree res hres), ?_⟩
  rw [same res h.live hres]
  refine h.tells.congr (fun x hx => same x (h.operands x hx) (hq x hx)) fun e he k => ?_
  rcases Pairings.entry_mem he k with hk | hk
  · exact same _ (hp _ hk).1 (hp _ hk).2
  · rw [hk, hg.tree_bot, hg'.tree_bot]

end Query

namespace CountQuery

theorem key_injective {q q' : CountQuery} (h : q.key = q'.key) : q = q' := by
  cases q <;> cases q' <;> simp_all [key]

theorem counted_key (q : CountQuery) : q.key.counted = q.node := by cases q <;> rfl

/-- The count, when the terminals stand at level `d`. -/
def count (d : Level) (t : Tree) : CountQuery → Float
  | sat _ => t.satCount d
  | path _ => t.pathCount

end CountQuery

/-! ### The tables -/

namespace ComputedTable

/-- Every entry is the right answer to its query. The level of the terminals, on which the counts
depend, is one that `ground` holds for. -/
structure Sound (t : ComputedTable) (g : Diagram) (p : Pairings) (ground : Level → Prop) : Prop where
  results : ∀ {family : Nat} {cache : Cache Key NodeId} {key : Key} {res : NodeId},
    t.results[family]? = some cache → cache.Holds key res →
      ∃ q : Query, q.family = family ∧ q.key = key ∧ q.Right g p res
  counts : ∀ {key : Key} {x : Float}, t.counts.Holds key x →
    ∃ q : CountQuery, q.key = key ∧ g.Live q.node ∧ ∀ d, ground d → x = q.count d (g.tree q.node)

variable {t : ComputedTable} {g g' : Diagram} {bound bound' : Nat} {p : Pairings}
  {ground ground' : Level → Prop} {S : NodeId → Prop}

theorem holds_of_find? {q : Query} {res : NodeId} (h : t.find? q = some res) :
    ∃ cache, t.results[q.family]? = some cache ∧ cache.Holds q.key res := by
  unfold ComputedTable.find? at h
  split at h
  · cases h
  · exact ⟨_, ‹_›, Cache.holds_of_find? h⟩

/-- What a look-up answers is right. -/
theorem Sound.find? (h : t.Sound g p ground) {q : Query} {res : NodeId}
    (hres : t.find? q = some res) : q.Right g p res := by
  obtain ⟨cache, hcache, hholds⟩ := holds_of_find? hres
  obtain ⟨q', hfamily, hkey, hright⟩ := h.results hcache hholds
  exact Query.key_injective hfamily hkey ▸ hright

theorem Sound.findCount? (h : t.Sound g p ground) {q : CountQuery} {x : Float}
    (hx : t.findCount? q = some x) {d : Level} (hd : ground d) : x = q.count d (g.tree q.node) := by
  obtain ⟨q', hkey, -, hright⟩ := h.counts (Cache.holds_of_find? hx)
  exact CountQuery.key_injective hkey ▸ hright d hd

theorem Sound.record (h : t.Sound g p ground) (q : Query) : (t.record q).Sound g p ground where
  results {family cache key res} hcache hres := by
    rw [ComputedTable.record, Array.getElem?_modify] at hcache
    split at hcache
    · obtain ⟨c, hc, rfl⟩ := Option.map_eq_some_iff.mp hcache
      exact h.results hc (Cache.holds_record.mp hres)
    · exact h.results hcache hres
  counts hx := h.counts hx

theorem Sound.insert (h : t.Sound g p ground) {q : Query} {res : NodeId} (hq : q.Right g p res) :
    (t.insert q res).Sound g p ground where
  results {family cache key res'} hcache hres := by
    rw [ComputedTable.insert, Array.getElem?_modify] at hcache
    split at hcache
    · rename_i hfamily
      obtain ⟨c, hc, rfl⟩ := Option.map_eq_some_iff.mp hcache
      rcases hres.of_insert with ⟨rfl, rfl⟩ | hres
      · exact ⟨q, hfamily, rfl, hq⟩
      · exact h.results hc hres
    · exact h.results hcache hres
  counts hx := h.counts hx

theorem Sound.recordCount (h : t.Sound g p ground) (q : CountQuery) :
    (t.recordCount q).Sound g p ground where
  results hcache hres := h.results hcache hres
  counts hx := h.counts (Cache.holds_record.mp hx)

theorem Sound.insertCount (h : t.Sound g p ground) {q : CountQuery} {x : Float}
    (hlive : g.Live q.node) (hx : ∀ d, ground d → x = q.count d (g.tree q.node)) :
    (t.insertCount q x).Sound g p ground where
  results hcache hres := h.results hcache hres
  counts hy := by
    rcases hy.of_insert with ⟨rfl, rfl⟩ | hy
    · exact ⟨q, rfl, hlive, hx⟩
    · exact h.counts hy

/-- Tables without an entry are sound. -/
theorem Sound.of_empty
    (results : ∀ {family : Nat} {cache : Cache Key NodeId} {key : Key} {res : NodeId},
      t.results[family]? = some cache → ¬ cache.Holds key res)
    (counts : ∀ {key : Key} {x : Float}, ¬ t.counts.Holds key x) : t.Sound g p ground :=
  ⟨fun hcache hres => (results hcache hres).elim, fun hx => (counts hx).elim⟩

theorem Sound.clear (t : ComputedTable) (g : Diagram) (p : Pairings) (ground : Level → Prop) :
    t.clear.Sound g p ground := by
  refine .of_empty (fun {family cache key res} hcache => ?_) Cache.not_holds_replicate
  rw [ComputedTable.clear, Array.getElem?_map, Option.map_eq_some_iff] at hcache
  obtain ⟨c, -, rfl⟩ := hcache
  exact Cache.not_holds_replicate

theorem Sound.resize (t : ComputedTable) (bits : Nat) (g : Diagram) (p : Pairings)
    (ground : Level → Prop) : (t.resize bits).Sound g p ground := by
  refine .of_empty (fun {family cache key res} hcache => ?_) Cache.not_holds_replicate
  rw [ComputedTable.resize, Array.getElem?_map, Option.map_eq_some_iff] at hcache
  obtain ⟨c, -, rfl⟩ := hcache
  exact Cache.not_holds_replicate

theorem Sound.ofBits (bits : Nat) (g : Diagram) (p : Pairings) (ground : Level → Prop) :
    (ofBits bits).Sound g p ground := by
  refine .of_empty (fun {family cache key res} hcache => ?_) Cache.not_holds_replicate
  rw [ComputedTable.ofBits, Array.getElem?_replicate] at hcache
  split at hcache
  · obtain rfl := Option.some.inj hcache
    exact Cache.not_holds_replicate
  · cases hcache

/-- Without counts, the level of the terminals is free. -/
theorem Sound.clearCounts (h : t.Sound g p ground) : t.clearCounts.Sound g p ground' where
  results hcache hres := h.results hcache hres
  counts hx := (Cache.not_holds_replicate hx).elim

/-- The tables stay sound where the diagram stays as it is. -/
theorem Sound.mono (h : t.Sound g p ground) (hg : g.Reduced id bound) (hg' : g'.Reduced id bound')
    (hS : g.Closed S) (hlive : ∀ id, g.Live id → S id) (agree : ∀ id, S id → g' id = g id)
    (hp : ∀ x ∈ p.nodes, g.Live x) (hground : ∀ d, ground' d → ground d) :
    t.Sound g' p ground' where
  results hcache hres := by
    obtain ⟨q, hfamily, hkey, hr⟩ := h.results hcache hres
    exact ⟨q, hfamily, hkey, hr.congr hg hg' hS agree (fun x hx => hlive x (hr.operands x hx))
      (fun x hx => ⟨hp x hx, hlive x (hp x hx)⟩) (hlive _ hr.live)⟩
  counts hx := by
    obtain ⟨q, hkey, hl, hr⟩ := h.counts hx
    refine ⟨q, hkey, hl.congr (agree _ (hlive _ hl)), fun d hd => ?_⟩
    rw [hg.tree_congr hg' hS agree (hlive _ hl) hl]
    exact hr d (hground d hd)

/-- After the dead entries are dropped, the others are right in the part of the diagram that is
left. -/
theorem Sound.clean (h : t.Sound g p ground) (hg : g.Reduced id bound) (hg' : g'.Reduced id bound')
    (hS : g.Closed S) (agree : ∀ id, S id → g' id = g id) (hp : ∀ x ∈ p.nodes, g.Live x ∧ S x)
    {live : NodeId → Bool} (hlive : ∀ id, live id = true → S id)
    (hground : ∀ d, ground' d → ground d) : (t.clean live).Sound g' p ground' where
  results {family cache key res} hcache hres := by
    rw [ComputedTable.clean, Array.getElem?_mapIdx, Option.map_eq_some_iff] at hcache
    obtain ⟨c, hc, rfl⟩ := hcache
    obtain ⟨hres, hkeep⟩ := hres.of_retain
    obtain ⟨q, rfl, rfl, hr⟩ := h.results hc hres
    rw [Bool.and_eq_true, List.all_eq_true, Query.nodes_key] at hkeep
    exact ⟨q, rfl, rfl, hr.congr hg hg' hS agree (fun x hx => hlive x (hkeep.1 x hx)) hp
      (hlive _ hkeep.2)⟩
  counts {key x} hx := by
    obtain ⟨hx, hkeep⟩ := Cache.Holds.of_retain hx
    obtain ⟨q, rfl, hl, hr⟩ := h.counts hx
    have hS' : S q.node := hlive _ (by rwa [CountQuery.counted_key] at hkeep)
    refine ⟨q, rfl, hl.congr (agree _ hS'), fun d hd => ?_⟩
    rw [hg.tree_congr hg' hS agree hS' hl]
    exact hr d (hground d hd)

end ComputedTable

end DecisionDiagram
