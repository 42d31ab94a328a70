/-
Every question about a manager has an answer.

A question that cannot be answered because of its arguments is answered by an error.

* `Answered` — the answer is no fault;
* `Manager.Sound.answered_eval` — evaluation reaches a terminal before its bound runs out;
* `Manager.Sound.answered_varProfile`, `.answered_validate` — all that is listed below a live node has a
  record.
-/
import DecisionDiagram.Proofs.Canonicity
import DecisionDiagram.Proofs.Handles

namespace DecisionDiagram

variable {α β : Type}

/-- There is an answer, which may be an error. -/
def Answered (x : Except Failure α) : Prop := x ≠ .error .fault

theorem Answered.ok (a : α) : Answered (.ok a) := nofun

theorem Answered.error (e : Error) : Answered (.error (.error e) : Except Failure α) := nofun

theorem Answered.of_eq {x : Except Failure α} {a : α} (h : x = .ok a) : Answered x := h ▸ .ok a

theorem Answered.bind {x : Except Failure α} {k : α → Except Failure β} (hx : Answered x)
    (hk : ∀ a, x = .ok a → Answered (k a)) : Answered (x >>= k) := by
  rcases x with (e | _) | a
  · exact .error e
  · exact absurd rfl hx
  · exact hk a rfl

theorem Answered.foldlM {γ : Type} {f : β → γ → Except Failure β} {l : List γ}
    (h : ∀ c ∈ l, ∀ b, Answered (f b c)) (b : β) : Answered (l.foldlM f b) := by
  induction l generalizing b with
  | nil => exact .ok b
  | cons c l ih =>
    rw [List.foldlM_cons]
    exact (h c (by simp) b).bind fun b' _ => ih (fun d hd => h d (List.mem_cons_of_mem _ hd)) b'

namespace Manager

variable {m : Manager} {f : NodeId} {v : Var} {k l : Level} {n : Nat}

/-! ### Checks -/

theorem answered_checkVar (m : Manager) (v : Var) : Answered (m.checkVar v) := by
  unfold checkVar
  split
  · exact .ok ()
  · exact .error _

theorem answered_checkVars (m : Manager) (vars : List Var) : Answered (m.checkVars vars) := by
  induction vars with
  | nil => exact .ok ()
  | cons v vars ih =>
    have hv := answered_checkVar m v
    rw [checkVars]
    split
    · rename_i e he
      exact he ▸ hv
    · exact ih

theorem answered_checkNode (m : Manager) (f : NodeId) : Answered (m.checkNode f) := by
  unfold checkNode
  split
  · exact .ok ()
  · exact .error _

theorem answered_checkNodes (m : Manager) (fs : List NodeId) : Answered (m.checkNodes fs) := by
  induction fs with
  | nil => exact .ok ()
  | cons f fs ih =>
    have hf := answered_checkNode m f
    rw [checkNodes]
    split
    · rename_i e he
      exact he ▸ hf
    · exact ih

theorem answered_checkInner (m : Manager) (f : NodeId) : Answered (m.checkInner f) := by
  refine (answered_checkNode m f).bind fun _ _ => ?_
  split
  · exact .error _
  · exact .ok ()

/-! ### Records, levels and variables -/

theorem Sound.answered_node (hm : m.Sound) (hf : m.diagram.Live f) : Answered (m.node f) := by
  obtain ⟨n, hn, -⟩ := hm.exists_reads hf
  exact .of_eq hn

theorem Sound.answered_varAt (hm : m.Sound) (hl : l < m.varNum) : Answered (m.varAt l) := by
  obtain ⟨v, hv, -⟩ := hm.order.getD_varAt hl
  exact .of_eq (a := v) (by rw [varAt, hv])

theorem Sound.answered_levelOf (hm : m.Sound) (hv : v < m.varNum) : Answered (m.levelOf v) := by
  obtain ⟨l, hl, -⟩ := hm.exists_levelOf hv
  exact .of_eq hl

theorem answered_pairing {number : Nat} (h : number < m.pairings.tables.size) :
    Answered (m.pairing number) := by
  obtain ⟨p, hp⟩ := exists_pairing h
  exact .of_eq hp

theorem Sound.answered_literalsOf (hm : m.Sound) (v : Var) : Answered (m.literalsOf v) := by
  refine (answered_checkVar m v).bind fun _ hv => ?_
  obtain ⟨p, hp⟩ := hm.exists_literals (checkVar_ok hv)
  rw [hp]
  exact .ok p

theorem Sound.answered_varToLevel (hm : m.Sound) (v : Var) : Answered (m.varToLevel v) :=
  (answered_checkVar m v).bind fun _ hv => hm.answered_levelOf (checkVar_ok hv)

theorem Sound.answered_levelToVar (hm : m.Sound) (l : Level) : Answered (m.levelToVar l) := by
  unfold levelToVar
  split
  · exact hm.answered_varAt ‹_›
  · exact .error _

theorem Sound.answered_levelOfNode (hm : m.Sound) (f : NodeId) : Answered (m.levelOfNode f) :=
  (answered_checkNode m f).bind fun _ hf =>
    (hm.answered_node ((checkNode_eq hm.store).mp hf)).bind fun _ _ => .ok _

/-- An inner node that has passed the check has a record. -/
theorem Sound.exists_of_checkInner (hm : m.Sound) (h : m.checkInner f = .ok ()) :
    ∃ n, m.diagram f = some n := by
  obtain ⟨⟨⟩, hlive, h⟩ := exists_of_bind_eq_ok h
  refine ((checkNode_eq hm.store).mp hlive).eq_some (Bool.eq_false_iff.mpr fun ht => ?_)
  rw [if_pos ht] at h
  cases h

theorem Sound.answered_inner (hm : m.Sound) {x : Node → Except Failure α}
    (h : ∀ n, m.diagram f = some n → Answered (x n)) :
    Answered (do m.checkInner f; x (← m.node f)) := by
  refine (answered_checkInner m f).bind fun _ hf => ?_
  obtain ⟨n, hn⟩ := hm.exists_of_checkInner hf
  rw [node_of_diagram hn]
  exact h n hn

theorem Sound.answered_varOf (hm : m.Sound) (f : NodeId) : Answered (m.varOf f) :=
  hm.answered_inner fun _ hn => hm.answered_varAt (hm.reduced.label_lt hn)

theorem Sound.answered_low (hm : m.Sound) (f : NodeId) : Answered (m.low f) :=
  hm.answered_inner fun _ _ => .ok _

theorem Sound.answered_high (hm : m.Sound) (f : NodeId) : Answered (m.high f) :=
  hm.answered_inner fun _ _ => .ok _

theorem Sound.answered_eval (hm : m.Sound) (f : NodeId) (assignment : Array Bool) :
    Answered (m.eval f assignment) := by
  have hcheck := answered_checkNode m f
  by_cases ha : m.varNum ≤ assignment.size
  · by_cases hf : m.checkNode f = .ok ()
    · obtain ⟨b, hb⟩ := hm.exists_eval ((checkNode_eq hm.store).mp hf) ha
      exact .of_eq hb
    · exact hcheck.bind fun _ h => absurd h hf
  · refine hcheck.bind fun _ _ => ?_
    rw [if_pos (Nat.lt_of_not_le ha)]
    exact .error _

/-! ### Lists of nodes -/

theorem Sound.answered_nodeCountMany (hm : m.Sound) (fs : List NodeId) :
    Answered (m.nodeCountMany fs) := by
  refine (answered_checkNodes m fs).bind fun _ hfs => ?_
  obtain ⟨marks, hmarks, -⟩ := hm.exists_reachable (checkNodes_ok hm hfs)
  exact (Answered.of_eq hmarks).bind fun _ _ => .ok _

theorem Sound.answered_nodeCount (hm : m.Sound) (f : NodeId) : Answered (m.nodeCount f) := by
  refine (answered_checkNode m f).bind fun _ hf => ?_
  obtain ⟨marks, hmarks, -⟩ :=
    hm.exists_reachable (List.forall_mem_singleton.mpr ((checkNode_eq hm.store).mp hf))
  exact (Answered.of_eq hmarks).bind fun _ _ => .ok _

/-- What is listed below a live node has a record. -/
theorem Sound.answered_below (hm : m.Sound) {x : List NodeId → Except Failure α}
    (h : ∀ ids, (∀ id ∈ ids, ∃ n, m.diagram id = some n) → Answered (x ids)) :
    Answered (do m.checkNode f; x (← m.descendants [f])) := by
  refine (answered_checkNode m f).bind fun _ hf => ?_
  obtain ⟨marks, hmarks, hM⟩ :=
    hm.exists_reachable (List.forall_mem_singleton.mpr ((checkNode_eq hm.store).mp hf))
  rw [descendants, hmarks]
  exact h _ fun id hid => ((hM id).mp hid).1

theorem Sound.answered_varProfile (hm : m.Sound) (f : NodeId) : Answered (m.varProfile f) := by
  refine hm.answered_below fun ids hids => Answered.foldlM (fun id hid profile => ?_) _
  obtain ⟨n, hn⟩ := hids id hid
  rw [node_of_diagram hn]
  exact (hm.answered_varAt (hm.reduced.label_lt hn)).bind fun _ _ => .ok _

theorem Sound.answered_validate (hm : m.Sound) (f : NodeId) : Answered (m.validate f) :=
  hm.answered_below fun _ hids => .of_eq (hm.validateNodes_eq_ok hids)

end Manager

end DecisionDiagram
