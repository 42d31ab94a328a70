/-
What the witnesses of decision trees mean.

* `Tree.preferred` — the branch that the preferred path takes, and `Tree.Follows`, what has the literals
  along this path;
* `Tree.Proper.eval_satOneSet` — a witness holds where an assignment does so, and has the given value at
  the levels of the set that the path leaves open;
* `Tree.Between.fill_fullSatOne` — a full witness is the witness for the set of all levels;
* `Tree.Proper.high_of_follows` — where the preferred path goes high, a satisfying assignment that has
  followed it does so, too;
* `Tree.Between.least` — so the assignment of a full witness is the least one that satisfies the tree.
-/
import DecisionDiagram.Proofs.Tree.Count
import DecisionDiagram.Proofs.Tree.Projection

namespace DecisionDiagram.Tree

variable {d i j k : Level} {l h t : Tree} {ks : List Level} {b p : Bool} {x : Level → Bool}

/-! ### The preferred path -/

/-- The branch that the preferred path takes, below a level that it makes true if this is the high one. -/
def preferred (l h : Tree) : Tree := if l = leaf false then h else l

theorem Proper.preferred (hl : Proper k l) (hh : Proper k h) : Proper k (Tree.preferred l h) := by
  unfold Tree.preferred
  split
  · exact hh
  · exact hl

theorem preferred_ne (hne : l ≠ h) : preferred l h ≠ leaf false := by
  unfold preferred
  split
  · rename_i hl
    exact fun hh => hne (hl.trans hh.symm)
  · assumption

/-- The preferred branch of a node has what both branches have. -/
theorem preferred_cases {P : Tree → Prop} (hl : P l) (hh : P h) : P (preferred l h) := by
  unfold preferred
  split
  · exact hh
  · exact hl

/-- A node decides its level for the preferred branch. -/
theorem fixes_node (k : Level) (l h : Tree) (j : Level) :
    (node k l h).fixes j =
      if j = k then some (decide (l = leaf false)) else (preferred l h).fixes j := by
  rw [fixes, preferred]
  split
  · rename_i hl
    rw [decide_eq_true hl]
  · rename_i hl
    rw [decide_eq_false hl]

/-- An assignment that takes the preferred branch. -/
theorem eval_preferred (hk : x k = decide (l = leaf false)) :
    (node k l h).eval x = (preferred l h).eval x := by
  by_cases hl : l = leaf false
  · rw [eval_node, preferred, if_pos hl, hk, if_pos (decide_eq_true hl)]
  · rw [eval_node, preferred, if_neg hl, hk, if_neg (by simp [hl])]

/-- The assignment has the literals along the preferred path. -/
def Follows (t : Tree) (x : Level → Bool) : Prop := ∀ j b, t.fixes j = some b → x j = b

theorem follows_leaf (b : Bool) (x : Level → Bool) : (leaf b).Follows x := nofun

/-- The first literal, and those below it. -/
theorem Proper.follows_node (ht : Proper i (Tree.node k l h)) (x : Level → Bool) :
    (Tree.node k l h).Follows x ↔
      x k = decide (l = Tree.leaf false) ∧ (Tree.preferred l h).Follows x := by
  cases ht with
  | node _ _ low high =>
    unfold Follows
    simp only [fixes_node]
    refine ⟨fun hx => ⟨hx k _ (if_pos rfl), fun j c hj => hx j c ?_⟩, fun ⟨hk, hx⟩ j c hj => ?_⟩
    · rw [if_neg, hj]
      rintro rfl
      rw [fixes_eq_none (low.preferred high).not_mem_levels] at hj
      cases hj
    · by_cases hjk : j = k
      · rw [if_pos hjk] at hj
        exact hjk ▸ hk.trans (Option.some.inj hj)
      · rw [if_neg hjk] at hj
        exact hx j c hj

/-- An assignment that follows the path satisfies the tree. -/
theorem Proper.eval_of_follows (ht : Proper k t) (hne : t ≠ Tree.leaf false) (hx : t.Follows x) :
    t.eval x = true := by
  have hfixing : t.fixing x = x := by
    funext j
    rcases hj : t.fixes j with _ | b
    · rw [fixing, hj, Option.getD_none]
    · rw [fixing, hj, Option.getD_some, hx j b hj]
  rw [← hfixing]
  exact ht.eval_fixing hne x

/-- The path decides no level but those of the tree. -/
theorem Between.of_fixes (ht : t.Between d k) (hj : t.fixes j = some b) : k ≤ j ∧ j < d := by
  induction ht with
  | leaf => cases hj
  | @node k i l h le lt ne low high ihl ihh =>
    rw [fixes_node] at hj
    split at hj
    · rename_i heq
      exact heq ▸ ⟨le, lt⟩
    · have hrest : i + 1 ≤ j ∧ j < d :=
        preferred_cases (P := fun t => t.fixes j = some b → i + 1 ≤ j ∧ j < d) ihl ihh hj
      exact ⟨by lia, hrest.2⟩

/-! ### Witnesses -/

theorem eval_literal (k : Level) (b : Bool) (t : Tree) (x : Level → Bool) :
    (t.literal k b).eval x = true ↔ x k = b ∧ t.eval x = true := by
  rw [literal]
  cases b
  · rw [if_neg Bool.false_ne_true, eval_make]
    cases x k <;> simp
  · rw [if_pos rfl, eval_make]
    cases x k <;> simp

theorem eval_literals (ks : List Level) (b : Bool) (t : Tree) (x : Level → Bool) :
    (t.literals ks b).eval x = true ↔ (∀ j ∈ ks, x j = b) ∧ t.eval x = true := by
  induction ks with
  | nil => simp [literals]
  | cons k ks ih =>
    rw [literals, List.foldr_cons, ← literals, eval_literal, ih, List.forall_mem_cons, and_assoc]

/-- Without levels to set, the witness has the literals along the path only. -/
theorem satOneSet_nil (t : Tree) : satOneSet p t [] = t.satOne := by
  induction t with
  | leaf => rfl
  | node k l h ihl ihh =>
    rw [satOneSet, List.takeWhile_nil, List.dropWhile_nil, ihl, ihh]
    rfl

/-- The witness of a tree that begins above the set. -/
theorem satOneSet_preferred (hks : ∀ j ∈ ks, k < j) : satOneSet p (node k l h) ks =
    (satOneSet p (preferred l h) ks).literal k (decide (l = leaf false)) := by
  rw [(satOneSet_node hks).1, preferred]
  split <;> simp [*]

/-- The witness holds where an assignment follows the path and has the given value at the levels of the
set that the path leaves open. -/
theorem Proper.eval_satOneSet (ht : Proper i t) (hne : t ≠ Tree.leaf false)
    (hks : ks.Pairwise (· < ·)) (x : Level → Bool) :
    (satOneSet p t ks).eval x = true ↔
      t.Follows x ∧ ∀ j ∈ ks, t.fixes j = none → x j = p := by
  induction ht generalizing ks with
  | leaf k b =>
    cases b
    · exact absurd rfl hne
    · rw [satOneSet, eval_literals]
      simp [follows_leaf, fixes]
  | @node i k l h le ne low high ihl ihh =>
    have hp : Proper i (Tree.node k l h) := .node le ne low high
    have ih := preferred_cases (P := fun t => t ≠ Tree.leaf false → ∀ ks : List Level,
      ks.Pairwise (· < ·) → ((satOneSet p t ks).eval x = true ↔
        t.Follows x ∧ ∀ j ∈ ks, t.fixes j = none → x j = p)) (fun hl _ => ihl hl) fun hh _ => ihh hh
    have below : ∀ ks : List Level, ks.Pairwise (· < ·) → (∀ j ∈ ks, k < j) →
        ((satOneSet p (Tree.node k l h) ks).eval x = true ↔ (Tree.node k l h).Follows x ∧
          ∀ j ∈ ks, (Tree.node k l h).fixes j = none → x j = p) := by
      intro ks hks hlt
      rw [satOneSet_preferred hlt, eval_literal, ih (preferred_ne ne) ks hks, hp.follows_node, and_assoc]
      refine and_congr_right fun _ => and_congr_right fun _ => forall₂_congr fun j hj => ?_
      rw [fixes_node, if_neg (Nat.ne_of_gt (hlt j hj))]
    -- What stands above the tree comes first, then the level of the tree, if it is in the set.
    induction ks with
    | nil => exact below [] hks (by simp)
    | cons j js ihs =>
      obtain ⟨hj, hjs⟩ := List.pairwise_cons.mp hks
      rcases Nat.lt_trichotomy j k with hlt | rfl | hgt
      · have hfree : (Tree.node k l h).fixes j = none := fixes_eq_none fun hmem =>
          absurd (Proper.le_of_mem_levels (.node (Nat.le_refl k) ne low high) hmem)
            (Nat.not_le.mpr hlt)
        have hfirst : ∀ i, (Tree.node k l h).level? = some i → j < i := fun i hi =>
          Option.some.inj hi ▸ hlt
        rw [satOneSet_cons hfirst, eval_literal, List.forall_mem_cons]
        simp only [hfree, true_implies]
        exact (and_congr_right fun _ => ihs hjs).trans and_left_comm
      · have hfixed : (Tree.node j l h).fixes j ≠ none := by
          rw [fixes_node, if_pos rfl]
          exact Option.some_ne_none _
        rw [(satOneSet_node hj).2, below js hjs hj, List.forall_mem_cons]
        simp only [hfixed, false_implies, true_and]
      · exact below (j :: js) hks (List.forall_mem_cons.mpr ⟨hgt, fun i hi => Nat.lt_trans hgt (hj i hi)⟩)

/-- A witness of a satisfiable tree is satisfiable. -/
theorem Proper.exists_eval_satOneSet (ht : Proper i t) (hne : t ≠ Tree.leaf false)
    (hks : ks.Pairwise (· < ·)) : ∃ x, (satOneSet p t ks).eval x = true := by
  refine ⟨t.fixing fun _ => p, (ht.eval_satOneSet hne hks _).mpr ⟨fun j b hj => ?_, fun j _ hj => ?_⟩⟩
  · rw [fixing, hj, Option.getD_some]
  · rw [fixing, hj, Option.getD_none]

/-! ### Full witnesses -/

/-- Levels above those of the tree get the first literals. -/
theorem satOneSet_append {js : List Level} (hj : ∀ j ∈ js, ∀ k, t.level? = some k → j < k)
    (ks : List Level) : satOneSet p t (js ++ ks) = (satOneSet p t ks).literals js p := by
  induction js with
  | nil => rfl
  | cons j js ih =>
    obtain ⟨hj, hjs⟩ := List.forall_mem_cons.mp hj
    rw [List.cons_append, satOneSet_cons hj, ih hjs]
    rfl

/-- The witness with a literal for every level is the one for the set of all levels. -/
theorem Between.fill_fullSatOne (ht : t.Between d k) :
    (t.fullSatOne d).fill k (t.levelOr d) = satOneSet false t (List.range' k (d - k)) := by
  induction ht with
  | leaf => rfl
  | @node k j l h le lt ne low high ihl ihh =>
    have hsplit : List.range' k (d - k) =
        List.range' k (j - k) ++ j :: List.range' (j + 1) (d - (j + 1)) := by
      obtain ⟨a, rfl⟩ := Nat.exists_eq_add_of_le le
      obtain ⟨c, rfl⟩ := Nat.exists_eq_add_of_lt lt
      have hlen : k + a + c + 1 - k = a + (c + 1) := by lia
      have hlen' : k + a + c + 1 - (k + a + 1) = c := by lia
      rw [hlen, hlen', Nat.add_sub_cancel_left, ← List.range'_append_1, List.range'_succ]
    have hfirst : ∀ i ∈ List.range' k (j - k), ∀ i', (Tree.node j l h).level? = some i' → i < i' := by
      intro i hi i' hi'
      obtain rfl := Option.some.inj hi'
      have := (List.mem_range'_1.mp hi).2
      lia
    have hbelow : ∀ i ∈ List.range' (j + 1) (d - (j + 1)), j < i := fun i hi =>
      (List.mem_range'_1.mp hi).1
    rw [hsplit, satOneSet_append hfirst, (satOneSet_node hbelow).2, (satOneSet_node hbelow).1, ← ihl,
      ← ihh]
    rfl

/-- A full witness holds for the one assignment that follows the path and is false elsewhere. -/
theorem Between.eval_fill_fullSatOne (ht : t.Between d 0) (hne : t ≠ Tree.leaf false)
    (x : Level → Bool) : ((t.fullSatOne d).fill 0 (t.levelOr d)).eval x = true ↔
      ∀ j, j < d → x j = t.fixing (fun _ => false) j := by
  rw [ht.fill_fullSatOne, ht.proper.eval_satOneSet hne (List.pairwise_lt_range' 1)]
  constructor
  · rintro ⟨hpath, hfree⟩ j hj
    rcases hfixes : t.fixes j with _ | b
    · rw [fixing, hfixes, Option.getD_none, hfree j (List.mem_range'_1.mpr (by lia)) hfixes]
    · rw [fixing, hfixes, Option.getD_some, hpath j b hfixes]
  · intro hx
    refine ⟨fun j b hj => ?_, fun j hj hfixes => ?_⟩
    · rw [hx j (ht.of_fixes hj).2, fixing, hj, Option.getD_some]
    · rw [hx j (by have := (List.mem_range'_1.mp hj).2; lia), fixing, hfixes, Option.getD_none]

/-- Where the path goes high, the low branch is false.  So an assignment that satisfies the tree and has
followed the path goes high, too. -/
theorem Proper.high_of_follows (ht : Proper i t) (hx : t.eval x = true) (hk : t.fixes k = some true)
    (hpath : ∀ j, j < k → ∀ b, t.fixes j = some b → x j = b) : x k = true := by
  induction ht with
  | leaf => cases hk
  | @node i j l h le ne low high ihl ihh =>
    have hp := low.preferred high
    rw [fixes_node] at hk
    split at hk
    · rename_i heq
      subst heq
      have hl := of_decide_eq_true (Option.some.inj hk)
      by_contra hfalse
      rw [eval_node, if_neg hfalse, hl] at hx
      cases hx
    · have hlt : j < k := by
        by_contra hle
        rw [fixes_eq_none fun hmem => absurd (hp.le_of_mem_levels hmem) (by lia)] at hk
        cases hk
      have hj : x j = decide (l = Tree.leaf false) :=
        hpath j hlt _ (by rw [fixes_node, if_pos rfl])
      rw [eval_preferred hj] at hx
      -- The rest of the path is in the branch that the assignment takes.
      refine preferred_cases (P := fun t => t.eval x = true → t.fixes k = some true →
        (∀ c, c < k → ∀ b, t.fixes c = some b → x c = b) → x k = true) ihl ihh hx hk
          fun c hc b hb => hpath c hc b ?_
      rw [fixes_node, if_neg, hb]
      rintro rfl
      rw [fixes_eq_none hp.not_mem_levels] at hb
      cases hb

/-- At the first level where a satisfying assignment differs from the one of a full witness, it is true
and the other one is false. -/
theorem Between.least (ht : t.Between d 0) (hx : t.eval x = true)
    (hne : ∃ j, j < d ∧ x j ≠ t.fixing (fun _ => false) j) :
    ∃ k, k < d ∧ t.fixing (fun _ => false) k = false ∧ x k = true ∧
      ∀ j, j < k → x j = t.fixing (fun _ => false) j := by
  classical
  obtain ⟨hlt, hdiffers⟩ := Nat.find_spec hne
  have hbefore : ∀ j, j < Nat.find hne → x j = t.fixing (fun _ => false) j := fun j hj =>
    by_contra fun hdiffers' => Nat.find_min hne hj ⟨Nat.lt_trans hj hlt, hdiffers'⟩
  have hlow : t.fixing (fun _ => false) (Nat.find hne) = false := by
    by_contra htrue
    have htrue := Bool.not_eq_false _ ▸ htrue
    have hfixes : t.fixes (Nat.find hne) = some true := by
      rw [fixing] at htrue
      rcases hfixes : t.fixes (Nat.find hne) with _ | b
      · rw [hfixes] at htrue
        cases htrue
      · rw [hfixes] at htrue
        exact congrArg some htrue
    refine hdiffers ((ht.proper.high_of_follows hx hfixes fun j hj b hb => ?_).trans htrue.symm)
    rw [hbefore j hj, fixing, hb, Option.getD_some]
  refine ⟨Nat.find hne, hlt, hlow, ?_, hbefore⟩
  rw [hlow] at hdiffers
  exact Bool.not_eq_false _ ▸ hdiffers

end DecisionDiagram.Tree
