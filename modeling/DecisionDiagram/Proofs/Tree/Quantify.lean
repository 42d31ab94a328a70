/-
Quantification on decision trees.

* `Tree.spine` — the levels of a cube, which are followed along the high branches;
* `Tree.quantify`, `Tree.unique` — quantification of a set of levels;
* `Tree.quantify_make`, `Tree.unique_make` and its like — one step on a tree that is made from two,
  which is how the recursions on the operands of a connective see their result;
* `Connective.across` — the join of the values of a function at all ways to set some levels, which
  is what the quantified tree has for values (`Tree.Proper.eval_quantifyCube`);
* `Tree.Proper.mem_spine` — the spine of a conjunction of levels lists exactly these.
-/
import DecisionDiagram.ComputedTable
import DecisionDiagram.Proofs.Tree.Connective

namespace DecisionDiagram

namespace Tree

variable {v : Level → Bool} {j k : Level} {l h s t : Tree} {op : Connective} {ks : List Level}

/-- The levels along the high branches. -/
def spine : Tree → List Level
  | leaf _ => []
  | node k _ h => k :: h.spine

/-- Joins the branches of the given levels by a connective. -/
def quantify (op : Connective) (ks : List Level) : Tree → Tree
  | leaf b => leaf b
  | node k l h =>
    if k ∈ ks then apply op (quantify op ks l) (quantify op ks h)
    else make k (quantify op ks l) (quantify op ks h)

/-- Joins the branches of the given levels, from the top, by exclusive disjunction. A tree that does
not decide one of them has two equal branches there. -/
def unique : Tree → List Level → Tree
  | t, [] => t
  | leaf _, _ :: _ => leaf false
  | node k l h, j :: js =>
    if j < k then leaf false
    else if j = k then apply .xor (unique l js) (unique h js)
    else make k (unique l (j :: js)) (unique h (j :: js))

/-- Quantification of the levels of a cube. -/
def quantifyCube (q : Quantifier) (t cube : Tree) : Tree :=
  match q with
  | .unique => unique t cube.spine
  | q => quantify q.connective cube.spine t

theorem quantifyCube_of_ne {q : Quantifier} (hq : q ≠ .unique) (t cube : Tree) :
    quantifyCube q t cube = quantify q.connective cube.spine t := by
  cases q
  · rfl
  · rfl
  · exact absurd rfl hq

/-! ### Quantification of a set of levels -/

theorem Proper.quantify (ht : Proper k t) (op : Connective) (ks : List Level) :
    Proper k (Tree.quantify op ks t) := by
  induction ht with
  | leaf => exact .leaf _ _
  | node le _ _ _ ihl ihh =>
    rw [Tree.quantify]
    split
    · exact (Proper.apply op ihl ihh).mono (by lia)
    · exact (Proper.make ihl ihh).mono le

/-- Levels above the tree make no difference. -/
theorem Proper.quantify_eq (ht : Proper k t) (hks : ∀ j ∈ ks, j < k) :
    Tree.quantify op ks t = t := by
  induction ht with
  | leaf => rfl
  | @node k i l h le ne _ _ ihl ihh =>
    have hi : i ∉ ks := fun hi => by
      have := hks i hi
      lia
    have below : ∀ j ∈ ks, j < i + 1 := fun j hj => by
      have := hks j hj
      lia
    rw [Tree.quantify, if_neg hi, ihl below, ihh below, Tree.make, if_neg ne]

/-- One step of the quantification, where the join of two equal branches is this branch. -/
theorem quantify_make (idem : ∀ {t}, Proper (k + 1) t → apply op t t = t) (hl : Proper (k + 1) l) :
    quantify op ks (make k l h) =
      if k ∈ ks then apply op (quantify op ks l) (quantify op ks h)
      else make k (quantify op ks l) (quantify op ks h) := by
  by_cases heq : l = h
  · subst heq
    have hq := idem (hl.quantify op ks)
    simp only [make, if_pos, hq, ite_self]
  · rw [make, if_neg heq, quantify]

/-! ### Unique quantification -/

theorem Proper.unique (ht : Proper k t) (ks : List Level) : Proper k (Tree.unique t ks) := by
  induction ht generalizing ks with
  | leaf k b =>
    cases ks with
    | nil => exact .leaf _ _
    | cons => exact .leaf _ _
  | @node k i l h le ne low high ihl ihh =>
    cases ks with
    | nil => exact .node le ne low high
    | cons j js =>
      rw [Tree.unique]
      split
      · exact .leaf _ _
      split
      · exact (Proper.apply .xor (ihl js) (ihh js)).mono (by lia)
      · exact (Proper.make (ihl _) (ihh _)).mono le

/-- Nothing below a quantified level depends on it. -/
theorem Proper.unique_eq (ht : Proper (k + 1) t) (ks : List Level) :
    Tree.unique t (k :: ks) = Tree.leaf false := by
  cases ht with
  | leaf => rfl
  | node le _ _ _ => rw [Tree.unique, if_pos (by lia)]

theorem unique_make_of_lt (hj : k < j) :
    unique (make k l h) (j :: ks) = make k (unique l (j :: ks)) (unique h (j :: ks)) := by
  by_cases heq : l = h
  · rw [heq, make, if_pos rfl, make, if_pos rfl]
  · rw [make, if_neg heq, unique, if_neg (by lia), if_neg (by lia)]

theorem unique_make (hl : Proper (k + 1) l) :
    unique (make k l h) (k :: ks) = apply .xor (unique l ks) (unique h ks) := by
  by_cases heq : l = h
  · subst heq
    rw [make, if_pos rfl, hl.unique_eq, apply_self_xor (hl.unique ks)]
  · rw [make, if_neg heq, unique, if_neg (by lia), if_pos rfl]

end Tree

/-! ### The join over all ways to set some levels -/

namespace Connective

variable {ι : Type} [DecidableEq ι] {op : Connective} {q : Quantifier} {F G : (ι → Bool) → Bool}
  {k : ι} {ks : List ι}

/-- Joins the values of a function at all ways to set the members of a list. -/
def across (op : Connective) (F : (ι → Bool) → Bool) : List ι → (ι → Bool) → Bool
  | [], v => F v
  | j :: js, v =>
    op.eval (op.across F js (Function.update v j false)) (op.across F js (Function.update v j true))

/-- What makes no difference to the function makes none to the join. -/
theorem across_update (hF : ∀ v b, F (Function.update v k b) = F v) (op : Connective) (ks : List ι)
    (v : ι → Bool) (b : Bool) : op.across F ks (Function.update v k b) = op.across F ks v := by
  induction ks generalizing v with
  | nil => exact hF v b
  | cons j js ih =>
    have side : ∀ c, op.across F js (Function.update (Function.update v k b) j c) =
        op.across F js (Function.update v j c) := fun c => by
      by_cases hj : j = k
      · rw [hj, Function.update_idem]
      · rw [Function.update_comm (Ne.symm hj), ih]
    rw [across, across, side, side]

/-- A case distinction by what is not set. -/
theorem across_ite (hk : k ∉ ks) (op : Connective) (F G : (ι → Bool) → Bool) (v : ι → Bool) :
    op.across (fun v => if v k then G v else F v) ks v =
      if v k then op.across G ks v else op.across F ks v := by
  induction ks generalizing v with
  | nil => rfl
  | cons j js ih =>
    obtain ⟨hj, hjs⟩ := not_or.mp (mt List.mem_cons.mpr hk)
    rw [across, ih hjs, ih hjs, Function.update_of_ne hj, Function.update_of_ne hj]
    split <;> rfl

theorem eval_self (hq : q ≠ .unique) (b : Bool) : q.connective.eval b b = b := by
  cases q
  · cases b <;> rfl
  · cases b <;> rfl
  · exact absurd rfl hq

/-- Four values may be joined by columns instead of rows. -/
theorem eval_medial (q : Quantifier) (a b c d : Bool) :
    q.connective.eval (q.connective.eval a b) (q.connective.eval c d) =
      q.connective.eval (q.connective.eval a c) (q.connective.eval b d) := by
  cases q <;> revert a b c d <;> decide

theorem across_const (hq : q ≠ .unique) (ks : List ι) (b : Bool) (v : ι → Bool) :
    q.connective.across (fun _ => b) ks v = b := by
  induction ks generalizing v with
  | nil => rfl
  | cons j js ih => rw [across, ih, ih, eval_self hq]

/-- A case distinction by what is set, where the cases themselves do not depend on it. -/
theorem across_ite_of_mem (hq : q ≠ .unique) (hk : k ∈ ks) (hks : ks.Nodup)
    (hF : ∀ v b, F (Function.update v k b) = F v) (hG : ∀ v b, G (Function.update v k b) = G v)
    (v : ι → Bool) :
    q.connective.across (fun v => if v k then G v else F v) ks v =
      q.connective.eval (q.connective.across F ks v) (q.connective.across G ks v) := by
  induction ks generalizing v with
  | nil => cases hk
  | cons j js ih =>
    obtain ⟨hj, hjs⟩ := List.nodup_cons.mp hks
    rw [across, across, across]
    rcases List.mem_cons.mp hk with rfl | hk
    · simp only [across_ite hj, Function.update_self, across_update hF, across_update hG, eval_self hq,
        if_true, Bool.false_eq_true, if_false]
    · rw [ih hk hjs, ih hk hjs, eval_medial]

/-- The two values of a function that does not depend on what is set exclude each other. -/
theorem across_xor_cons (hF : ∀ v b, F (Function.update v k b) = F v) (ks : List ι) (v : ι → Bool) :
    xor.across F (k :: ks) v = false := by
  rw [across, across_update hF, across_update hF, eval, bne_self_eq_false]

/-- In which order things are set does not matter. -/
theorem across_perm {js : List ι} (h : ks.Perm js) (q : Quantifier) (F : (ι → Bool) → Bool)
    (v : ι → Bool) : q.connective.across F ks v = q.connective.across F js v := by
  induction h generalizing v with
  | nil => rfl
  | cons k _ ih => rw [across, across, ih, ih]
  | swap i j js =>
    by_cases hij : i = j
    · rw [hij]
    · simp only [across]
      rw [eval_medial, Function.update_comm hij, Function.update_comm hij, Function.update_comm hij,
        Function.update_comm hij]
  | trans _ _ ih ih' => rw [ih, ih']

end Connective

/-! ### Values -/

namespace Tree

variable {v : Level → Bool} {i j k : Level} {l h s t cube : Tree} {q : Quantifier} {ks : List Level}

/-- The quantified tree has the values that the tree has on both sides of each quantified level,
joined. -/
theorem Proper.eval_quantify (hq : q ≠ .unique) (ht : Proper k t) (hks : ks.Nodup)
    (v : Level → Bool) :
    (Tree.quantify q.connective ks t).eval v = q.connective.across t.eval ks v := by
  induction ht generalizing v with
  | leaf _ b => exact (Connective.across_const hq ks b v).symm
  | @node _ i l h _ _ hl hh ihl ihh =>
    rw [Tree.quantify]
    split
    · rename_i hi
      rw [eval_apply, ihl, ihh]
      exact (Connective.across_ite_of_mem hq hi hks (fun _ b => hl.eval_update b)
        (fun _ b => hh.eval_update b) v).symm
    · rename_i hi
      rw [eval_make, ihl, ihh]
      exact (Connective.across_ite hi _ l.eval h.eval v).symm

/-- The same for unique quantification, which goes along the levels from the top. -/
theorem Proper.eval_unique (ht : Proper k t) (hks : ks.Pairwise (· < ·)) (v : Level → Bool) :
    (Tree.unique t ks).eval v = Connective.xor.across t.eval ks v := by
  induction ht generalizing v ks with
  | leaf k b =>
    cases ks with
    | nil => rfl
    | cons j js => exact (Connective.across_xor_cons (fun _ _ => rfl) js v).symm
  | @node k i l h le ne hl hh ihl ihh =>
    cases ks with
    | nil => rfl
    | cons j js =>
      obtain ⟨hj, hjs⟩ := List.pairwise_cons.mp hks
      rw [Tree.unique]
      split
      · rename_i hji
        -- The tree does not depend on the first variable, so both of its values agree.
        have hfree : Proper (j + 1) (Tree.node i l h) := .node hji ne hl hh
        exact (Connective.across_xor_cons (fun _ b => hfree.eval_update b) js v).symm
      split
      · rename_i hji
        subst hji
        have hj : j ∉ js := fun hmem => Nat.lt_irrefl j (hj j hmem)
        rw [eval_apply, ihl hjs, ihh hjs]
        show _ = Connective.xor.across (fun v => if v j then h.eval v else l.eval v) (j :: js) v
        rw [Connective.across, Connective.across_ite hj, Connective.across_ite hj]
        rw [Function.update_self, Function.update_self, if_neg nofun, if_pos rfl,
          Connective.across_update fun _ b => hl.eval_update b,
          Connective.across_update fun _ b => hh.eval_update b]
      · rename_i hji hne
        have hi : i ∉ j :: js := fun hmem => by
          rcases List.mem_cons.mp hmem with heq | hmem
          · exact hne heq.symm
          · have := hj i hmem
            lia
        rw [eval_make, ihl hks, ihh hks]
        exact (Connective.across_ite hi _ l.eval h.eval v).symm

/-- A constant cube has no levels. -/
theorem Proper.quantifyCube_leaf (ht : Proper k t) (q : Quantifier) (b : Bool) :
    Tree.quantifyCube q t (.leaf b) = t := by
  cases q with
  | unique => exact Tree.unique.eq_1 t
  | _ => exact ht.quantify_eq (by simp [spine])

/-- The spine goes down. -/
theorem Proper.spine_pairwise (ht : Proper k t) :
    t.spine.Pairwise (· < ·) ∧ ∀ j ∈ t.spine, k ≤ j := by
  induction ht with
  | leaf => exact ⟨.nil, by simp [spine]⟩
  | @node k i l h le _ _ _ _ ih =>
    obtain ⟨hpairwise, hbelow⟩ := ih
    refine ⟨List.pairwise_cons.mpr ⟨hbelow, hpairwise⟩, fun j hj => ?_⟩
    rcases List.mem_cons.mp hj with rfl | hj
    · exact le
    · have := hbelow j hj
      lia

/-- Quantification by a cube joins the values over all ways to set the levels of its spine. -/
theorem Proper.eval_quantifyCube (ht : Proper k t) (hcube : Proper j cube) (q : Quantifier)
    (v : Level → Bool) :
    (quantifyCube q t cube).eval v = q.connective.across t.eval cube.spine v := by
  have hspine := hcube.spine_pairwise.1
  by_cases hq : q = .unique
  · rw [hq]
    exact ht.eval_unique hspine v
  · rw [quantifyCube_of_ne hq]
    exact ht.eval_quantify hq (hspine.imp Nat.ne_of_lt) v

/-- A tree that is the conjunction of some levels has these levels on its spine.  A level that is on
it and is none of them would have two equal branches. -/
theorem Proper.mem_spine (ht : Proper k t) {K : Level → Prop}
    (h : ∀ v, t.eval v = true ↔ ∀ j, K j → v j = true) : j ∈ t.spine ↔ K j := by
  induction ht generalizing K with
  | leaf _ b =>
    have hb : b = true := (h fun _ => true).mpr fun _ _ => rfl
    refine iff_of_false List.not_mem_nil fun hj => ?_
    cases (h fun _ => false).mp hb j hj
  | @node _ i l u _ ne hl hu _ ih =>
    have hhigh : ∀ v, u.eval v = true ↔ ∀ j, K j ∧ j ≠ i → v j = true := fun v => by
      have hv := h (Function.update v i true)
      rw [eval_node, Function.update_self, if_pos rfl, hu.eval_update] at hv
      rw [hv]
      refine forall_congr' fun j => ?_
      by_cases hj : j = i
      · simp [hj]
      · simp [hj]
    -- Without the literal of `i`, the two branches would be the same.
    have hi : K i := by
      by_contra hi
      refine ne (eq_of_eval hl hu fun v => ?_)
      have hlow := h (Function.update v i false)
      rw [eval_node, Function.update_self, if_neg nofun, hl.eval_update] at hlow
      rw [Bool.eq_iff_iff, hlow, hhigh]
      refine forall_congr' fun j => ?_
      by_cases hj : j = i
      · simp [hj, hi]
      · simp [hj]
    rw [spine, List.mem_cons, ih hhigh]
    by_cases hj : j = i
    · simp [hj, hi]
    · simp [hj]

end Tree

end DecisionDiagram
