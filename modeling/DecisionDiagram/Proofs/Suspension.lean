/-
A collection in the middle of an operator frees nothing that the operator still needs.

* `Program.Recursive` — the recursions of the operators;
* `Program.Recursive.balanced` — each leaves the pending nodes as it found them;
* `Manager.Settled.suspended` — when an operator makes a node, and may have to collect for it, all that
  it names from then on is kept.
-/
import DecisionDiagram.Proofs.Commands
import DecisionDiagram.Proofs.Runs

namespace DecisionDiagram

open Manager

/-- The scope of all nodes. -/
def Scope.univ : Scope := ⟨fun _ => True, fun _ => trivial⟩

namespace Program

/-- A recursion of the connectives, the quantifiers, the cofactors or the substitutions. -/
inductive Recursive : Program NodeId → Prop
  | not (f : NodeId) (n : Nat) : Recursive (Program.not f n)
  | apply (op : Connective) (l r : NodeId) (n : Nat) : Recursive (Program.apply op l r n)
  | ite (f g h : NodeId) (n : Nat) : Recursive (Program.ite f g h n)
  | quantify (q : Quantifier) (set : LevelSet) (f : NodeId) (n : Nat) :
    Recursive (Program.quantify q set f n)
  | unique (f cube : NodeId) (n : Nat) : Recursive (Program.unique f cube n)
  | applyQuantify (q : Quantifier) (op : Connective) (set : LevelSet) (l r : NodeId) (n : Nat) :
    Recursive (Program.applyQuantify q op set l r n)
  | applyUnique (op : Connective) (l r cube : NodeId) (n : Nat) :
    Recursive (Program.applyUnique op l r cube n)
  | restrict (v : Valuation) (f : NodeId) (n : Nat) : Recursive (Program.restrict v f n)
  | constrain (f c : NodeId) (n : Nat) : Recursive (Program.constrain f c n)
  | simplify (f d : NodeId) (n : Nat) : Recursive (Program.simplify f d n)
  | compose (level : Level) (f g : NodeId) (n : Nat) : Recursive (Program.compose level f g n)
  | vecCompose (p : Pairing) (last : Level) (f : NodeId) (n : Nat) :
    Recursive (Program.vecCompose p last f n)
  | rename (p : Pairing) (last : Level) (f : NodeId) (n : Nat) :
    Recursive (Program.rename p last f n)
  | sink (level : Level) (l h : NodeId) (n : Nat) : Recursive (Program.sink level l h n)

/-- A recursion names its operands only, and what it learns of from them. -/
theorem Recursive.tidy {p : Program NodeId} (h : p.Recursive) : Tidy Scope.univ p := by
  have all : ∀ {f : NodeId}, f ∈ Scope.univ := trivial
  cases h with
  | not => exact .not all
  | apply => exact .apply all all
  | ite => exact .ite all all all
  | quantify => exact .quantify all all
  | unique => exact .unique all all
  | applyQuantify => exact .applyQuantify all all all
  | applyUnique => exact .applyUnique all all all
  | restrict => exact .restrict all all
  | constrain => exact .constrain all all
  | simplify => exact .simplify all all
  | compose => exact .compose all all
  | vecCompose => exact .vecCompose all fun _ _ => all
  | rename => exact .rename all fun _ _ => all
  | sink => exact .sink all all

/-- After a recursion, the same nodes are pending as before. -/
theorem Recursive.balanced {p : Program NodeId} (h : p.Recursive) : p.Balanced := h.tidy.balanced

end Program

namespace Manager

variable {m : Manager}

/-- No use after free.  Whenever an operator makes a node, the children and all nodes that the rest of
the operator names are reachable from the roots, and a collection at this moment leaves what is
reachable as it is.  The recursions drop all that they had pending. -/
theorem Settled.suspended (hm : m.Settled) :
    (∀ (c : Command) (r : Request) (p : Program NodeId) (m₀ : Manager), c.request? = some r →
      Action.Attempts r m p m₀ → ∀ (level : Level) (low high : NodeId)
        (rest : NodeId → Program NodeId) (m' : Manager), p.At m₀ (.mk level low high) rest m' →
          m'.Kept low ∧ m'.Kept high ∧
          (∀ id, (rest id).Names (m'.scope.add [id]) fun _ _ => True) ∧
          ∃ freed m'', m'.collect = some (freed, m'') ∧
            ∀ id, m'.Kept id → m''.store.isLive id = true ∧ m''.diagram id = m'.diagram id) ∧
    ∀ p : Program NodeId, p.Recursive → p.Balanced := by
  refine ⟨?_, fun p hp => hp.balanced⟩
  intro c r p m₀ hc hp level low high rest m' hs
  have hready := hm.ready
  obtain ⟨hm₀, hens⟩ := hp.ensures hready (Command.fulfilled hc m hready)
  obtain ⟨he, hc', hguards, -⟩ := hens.at hs
  obtain ⟨hreads, hrest⟩ := hguards rfl
  obtain ⟨freed, m'', hcollect, hC⟩ := exists_collect hc'.store hc'.reduced fun id hid =>
    hc'.rooted (mem_rootNodes.mp hid).2
  refine ⟨hreads low (by simp [Step.reads]), hreads high (by simp [Step.reads]), hrest, freed, m'',
    hcollect, fun id hid => ⟨hC.store.live_iff.mp ?_, hC.kept id hid⟩⟩
  exact (hc'.kept_live hid).congr (hC.kept id hid)

/-- The children of a node that a caller asks for are operands of the call. -/
theorem suspended_makeNode :
    ∃ m, after (.small 16 16) [.setVarNum 2] = some m ∧ m.roots.nodes = [] ∧
      (equip [0, 4] (m.barred true)).Kept 4 ∧
      ∃ freed m', (equip [0, 4] (m.barred true)).collect = some (freed, m') ∧
        m'.store.isLive 4 = true := by
  have hrun : (after (.small 16 16) [.setVarNum 2]).any fun m =>
      ((Request.makeNode 0 0 4).check m).toBool && (m.checkNodes [0, 4]).toBool &&
        m.roots.nodes == [] := by
    decide +kernel
  obtain ⟨m, hm, hfacts⟩ := (Option.any_eq_true _ _).mp hrun
  simp only [Bool.and_eq_true, beq_iff_eq] at hfacts
  obtain ⟨⟨hcheck, hnodes⟩, hroots⟩ := hfacts
  have ok : ∀ {x : Except Failure Unit}, x.toBool = true → x = .ok () := by
    rintro (_ | _) h
    · cases h
    · rfl
  obtain ⟨-, hkept, -, freed, m', hcollect, hlive⟩ := (settled_after hm).suspended.1
    (.makeNode 0 0 4) _ _ _ rfl (.first (ok hcheck) rfl (ok hnodes)) 0 0 4 _ _ (.one _ _)
  exact ⟨m, hm, hroots, hkept, freed, m', hcollect, (hlive 4 hkept).1⟩

end Manager

end DecisionDiagram
