/-
What operators report of their own.

A program breaks off where a step does.  Most steps that can fail have found something out about the
manager: an operand is not live, or a node does not fit.  A `fail` has not; it is the program that reports
the error.  No operator does so but renaming, and what that reports is a conflict.

* `Step.Honest` — the steps in question;
* `Program.Honest` — the same for a program, with a rule for each part of an operator;
* `Command.honest` — the programs of all operators.
-/
import DecisionDiagram.Command
import DecisionDiagram.Proofs.Program

namespace DecisionDiagram

/-- The step reports no error of its own but a conflict. -/
def Step.Honest : Step → Prop
  | .fail e => e = .replaceConflict
  | _ => True

namespace Program

variable {α β : Type}

/-- The program reports no error of its own but a conflict. -/
def Honest (p : Program α) : Prop := p.Only Step.Honest

namespace Honest

/-! ### Parts of an operator -/

theorem pure (a : α) : Honest (Pure.pure a) := trivial

theorem fault : Honest (Program.fault : Program α) := ⟨trivial, nofun⟩

theorem fail : Honest (Program.fail .replaceConflict : Program α) := ⟨rfl, nofun⟩

theorem bind {p : Program α} {next : α → Program β} (hp : p.Honest) (hn : ∀ a, (next a).Honest) :
    Honest (p >>= next) := ⟨hp, hn⟩

/-- A step that is no report may come first. -/
theorem step {s : Step} {next : s.Answer → Program α} (hs : s.Honest) (hn : ∀ a, (next a).Honest) :
    Honest (one s >>= next) := ⟨hs, hn⟩

theorem mk (level : Level) (low high : NodeId) : Honest (Program.mk level low high) := trivial

theorem memo {q : Query} {p : Program NodeId} (hp : p.Honest) : Honest (Program.memo q p) := by
  refine .step trivial fun res => ?_
  cases res with
  | none => exact .bind hp fun _ => .step trivial fun _ => .pure _
  | some res => exact .pure res

theorem hold {p : Program NodeId} (hp : p.Honest) (f : NodeId) : Honest (Program.hold f p) :=
  .step trivial fun _ => .bind hp fun _ => .step trivial fun _ => .pure _

theorem branch {low high : Program NodeId} {join : NodeId → NodeId → Program NodeId}
    (hl : low.Honest) (hh : high.Honest) (hj : ∀ l h, (join l h).Honest) :
    Honest (Program.branch low high join) :=
  .bind hl fun _ => .hold (.bind hh fun _ => .hold (hj _ _) _) _

/-! ### Connectives -/

theorem not (f : NodeId) (n : Nat) : Honest (Program.not f n) := by
  induction n generalizing f with
  | zero => exact .fault
  | succ n ih =>
    unfold Program.not
    split
    · exact .pure _
    · exact .memo (.step trivial fun _ => .branch (ih _) (ih _) fun _ _ => .mk _ _ _)

theorem apply (op : Connective) (l r : NodeId) (n : Nat) : Honest (Program.apply op l r n) := by
  induction n generalizing l r with
  | zero => exact .fault
  | succ n ih =>
    unfold Program.apply
    split
    · exact .pure _
    · exact .memo (.step trivial fun _ => .step trivial fun _ =>
        .branch (ih _ _) (ih _ _) fun _ _ => .mk _ _ _)

theorem ite (f g h : NodeId) (n : Nat) : Honest (Program.ite f g h n) := by
  induction n generalizing f g h with
  | zero => exact .fault
  | succ n ih =>
    unfold Program.ite
    split
    · exact .pure _
    split
    · exact .pure _
    split
    · exact .pure _
    split
    · exact .pure _
    split
    · exact .step trivial fun _ => .not _ _
    · exact .memo (.step trivial fun _ => .step trivial fun _ => .step trivial fun _ =>
        .branch (ih _ _ _) (ih _ _ _) fun _ _ => .mk _ _ _)

theorem applyMany (op : Connective) (fs : List NodeId) (res : NodeId) :
    Honest (Program.applyMany op fs res) := by
  induction fs generalizing res with
  | nil => exact .pure _
  | cons f fs ih =>
    exact .step trivial fun _ => .bind (.apply _ _ _ _) fun _ => .step trivial fun _ => ih _

/-! ### Quantification -/

theorem collectLevels (n : Nat) (id : NodeId) (s : LevelSet) :
    Honest (Program.collectLevels n id s) := by
  induction n generalizing id s with
  | zero => exact .fault
  | succ n ih =>
    unfold Program.collectLevels
    split
    · exact .pure _
    · exact .step trivial fun _ => ih _ _

theorem levelSet (cube : NodeId) : Honest (Program.levelSet cube) :=
  .step trivial fun _ => .step trivial fun _ => .step trivial fun _ => .collectLevels _ _ _

theorem quantify (q : Quantifier) (set : LevelSet) (f : NodeId) (n : Nat) :
    Honest (Program.quantify q set f n) := by
  induction n generalizing f with
  | zero => exact .fault
  | succ n ih =>
    refine .step trivial fun nf => ?_
    split
    · exact .pure _
    · refine .memo (.branch (ih _) (ih _) fun low high => ?_)
      split
      · exact .step trivial fun _ => .apply _ _ _ _
      · exact .mk _ _ _

theorem unique (f cube : NodeId) (n : Nat) : Honest (Program.unique f cube n) := by
  induction n generalizing f cube with
  | zero => exact .fault
  | succ n ih =>
    refine .step trivial fun nf => .step trivial fun nc => ?_
    split
    · exact .pure _
    split
    · exact .pure _
    refine .memo ?_
    split
    · exact .branch (ih _ _) (ih _ _) fun _ _ => .step trivial fun _ => .apply _ _ _ _
    · exact .branch (ih _ _) (ih _ _) fun _ _ => .mk _ _ _

theorem quantifyCube (q : Quantifier) (f cube : NodeId) (n : Nat) :
    Honest (Program.quantifyCube q f cube n) := by
  refine .bind (.levelSet cube) fun set => ?_
  cases q with
  | unique => exact .unique _ _ _
  | _ => exact .quantify _ _ _ _

theorem applyQuantify (q : Quantifier) (op : Connective) (set : LevelSet) (l r : NodeId) (n : Nat) :
    Honest (Program.applyQuantify q op set l r n) := by
  induction n generalizing l r with
  | zero => exact .fault
  | succ n ih =>
    unfold Program.applyQuantify
    split
    · exact .step trivial fun _ => .quantify _ _ _ _
    · refine .step trivial fun nl => .step trivial fun nr => ?_
      dsimp only
      split
      · exact .step trivial fun _ => .apply _ _ _ _
      · refine .memo (.branch (ih _ _) (ih _ _) fun low high => ?_)
        split
        · exact .step trivial fun _ => .apply _ _ _ _
        · exact .mk _ _ _

theorem applyUnique (op : Connective) (l r cube : NodeId) (n : Nat) :
    Honest (Program.applyUnique op l r cube n) := by
  induction n generalizing l r cube with
  | zero => exact .fault
  | succ n ih =>
    refine .step trivial fun nl => .step trivial fun nr => .step trivial fun nc => ?_
    dsimp only
    split
    · exact .pure _
    split
    · exact .pure _
    split
    · exact .step trivial fun _ => .apply _ _ _ _
    refine .memo ?_
    split
    · exact .branch (ih _ _ _) (ih _ _ _) fun _ _ => .step trivial fun _ => .apply _ _ _ _
    · exact .branch (ih _ _ _) (ih _ _ _) fun _ _ => .mk _ _ _

theorem applyQuantifyCube (q : Quantifier) (op : Connective) (l r cube : NodeId) (n : Nat) :
    Honest (Program.applyQuantifyCube q op l r cube n) := by
  refine .bind (.levelSet cube) fun set => ?_
  cases q with
  | unique => exact .applyUnique _ _ _ _ _
  | _ => exact .applyQuantify _ _ _ _ _ _

/-! ### Cofactors -/

theorem collectLiterals (n : Nat) (id : NodeId) (v : Valuation) :
    Honest (Program.collectLiterals n id v) := by
  induction n generalizing id v with
  | zero => exact .fault
  | succ n ih =>
    unfold Program.collectLiterals
    split
    · exact .pure _
    · refine .step trivial fun node => ?_
      split <;> exact ih _ _

theorem restrict (v : Valuation) (f : NodeId) (n : Nat) : Honest (Program.restrict v f n) := by
  induction n generalizing f with
  | zero => exact .fault
  | succ n ih =>
    refine .step trivial fun nf => ?_
    split
    · exact .pure _
    · refine .memo ?_
      split
      · exact ih _
      · exact .branch (ih _) (ih _) fun _ _ => .mk _ _ _

theorem restrictCube (f cube : NodeId) (n : Nat) : Honest (Program.restrictCube f cube n) :=
  .bind (.step trivial fun _ => .step trivial fun _ => .step trivial fun _ => .collectLiterals _ _ _)
    fun _ => .restrict _ _ _

theorem constrain (f c : NodeId) (n : Nat) : Honest (Program.constrain f c n) := by
  induction n generalizing f c with
  | zero => exact .fault
  | succ n ih =>
    unfold Program.constrain
    split
    · exact .pure _
    split
    · exact .pure _
    split
    · exact .pure _
    refine .memo (.step trivial fun nf => .step trivial fun nc => ?_)
    dsimp only
    split
    · exact .branch (ih _ _) (ih _ _) fun _ _ => .mk _ _ _
    split
    · exact ih _ _
    split
    · exact ih _ _
    · exact .branch (ih _ _) (ih _ _) fun _ _ => .mk _ _ _

theorem simplify (f d : NodeId) (n : Nat) : Honest (Program.simplify f d n) := by
  induction n generalizing f d with
  | zero => exact .fault
  | succ n ih =>
    unfold Program.simplify
    split
    · exact .pure _
    split
    · exact .pure _
    split
    · exact .pure _
    refine .memo (.step trivial fun nf => .step trivial fun nd => ?_)
    split
    · split
      · exact ih _ _
      split
      · exact ih _ _
      · exact .branch (ih _ _) (ih _ _) fun _ _ => .mk _ _ _
    split
    · exact .branch (ih _ _) (ih _ _) fun _ _ => .mk _ _ _
    · exact .step trivial fun _ => .bind (.apply _ _ _ _) fun _ => .hold (ih _ _) _

/-! ### Substitution -/

theorem compose (level : Level) (f g : NodeId) (n : Nat) : Honest (Program.compose level f g n) := by
  induction n generalizing f g with
  | zero => exact .fault
  | succ n ih =>
    refine .step trivial fun nf => ?_
    dsimp only
    split
    · exact .pure _
    refine .memo ?_
    split
    · exact .step trivial fun _ => .branch (ih _ _) (ih _ _) fun _ _ => .mk _ _ _
    · exact .step trivial fun _ => .ite _ _ _ _

theorem substitute (p : Pairing) (level : Level) : Honest (Program.substitute p level) := by
  unfold Program.substitute
  split
  · exact .pure _
  · exact .fault

theorem vecCompose (p : Pairing) (last : Level) (f : NodeId) (n : Nat) :
    Honest (Program.vecCompose p last f n) := by
  induction n generalizing f with
  | zero => exact .fault
  | succ n ih =>
    refine .step trivial fun nf => ?_
    split
    · exact .pure _
    · exact .memo (.branch (ih _) (ih _) fun _ _ => .bind (.substitute _ _) fun _ =>
        .step trivial fun _ => .ite _ _ _ _)

theorem sink (level : Level) (l h : NodeId) (n : Nat) : Honest (Program.sink level l h n) := by
  induction n generalizing l h with
  | zero => exact .fault
  | succ n ih =>
    refine .step trivial fun nl => .step trivial fun nh => ?_
    dsimp only
    split
    · exact .mk _ _ _
    split
    · exact .fail
    · exact .branch (ih _ _) (ih _ _) fun _ _ => .mk _ _ _

theorem rename (p : Pairing) (last : Level) (f : NodeId) (n : Nat) :
    Honest (Program.rename p last f n) := by
  induction n generalizing f with
  | zero => exact .fault
  | succ n ih =>
    unfold Program.rename
    split
    · exact .pure _
    refine .step trivial fun nf => ?_
    split
    · exact .pure _
    · exact .memo (.branch (ih _) (ih _) fun _ _ => .bind (.substitute _ _) fun _ =>
        .step trivial fun _ => .step trivial fun _ => .sink _ _ _ _)

theorem vecComposeBy (f : NodeId) (number n : Nat) : Honest (Program.vecComposeBy f number n) := by
  refine .step trivial fun p => ?_
  split
  · exact .pure _
  · exact .vecCompose _ _ _ _

theorem renameBy (f : NodeId) (number n : Nat) : Honest (Program.renameBy f number n) := by
  refine .step trivial fun p => ?_
  split
  · exact .pure _
  · exact .rename _ _ _ _

/-! ### Witnesses and sets of variables -/

theorem literal (level : Level) (positive : Bool) (rest : NodeId) :
    Honest (Program.literal level positive rest) := by
  cases positive <;> exact .bind (.mk _ _ _) fun _ => .step trivial fun _ => .pure _

theorem satOne (f : NodeId) (n : Nat) : Honest (Program.satOne f n) := by
  induction n generalizing f with
  | zero => exact .fault
  | succ n ih =>
    unfold Program.satOne
    split
    · exact .pure _
    refine .step trivial fun nf => ?_
    split <;> exact .bind (ih _) fun _ => .literal _ _ _

theorem satOneSet (polarity : Bool) (f set : NodeId) (n : Nat) :
    Honest (Program.satOneSet polarity f set n) := by
  induction n generalizing f set with
  | zero => exact .fault
  | succ n ih =>
    unfold Program.satOneSet
    split
    · exact .pure _
    refine .step trivial fun nf => .step trivial fun ns => ?_
    dsimp only
    split
    · exact .bind (ih _ _) fun _ => .literal _ _ _
    · split <;> exact .bind (ih _ _) fun _ => .literal _ _ _

theorem negativeLiterals (levels : List Level) (res : NodeId) :
    Honest (Program.negativeLiterals levels res) := by
  induction levels generalizing res with
  | nil => exact .pure _
  | cons level levels ih => exact .bind (.literal _ _ _) fun _ => ih _

theorem fullSatOne (f : NodeId) (n : Nat) : Honest (Program.fullSatOne f n) := by
  induction n generalizing f with
  | zero => exact .fault
  | succ n ih =>
    unfold Program.fullSatOne
    split
    · exact .pure _
    · exact .step trivial fun _ => .bind (ih _) fun _ => .step trivial fun _ =>
        .bind (.negativeLiterals _ _) fun _ => .literal _ _ _

theorem fullSatOneFromTop (f : NodeId) (n : Nat) : Honest (Program.fullSatOneFromTop f n) :=
  .bind (.fullSatOne _ _) fun _ => .step trivial fun _ => .negativeLiterals _ _

theorem cubeOfLevels (levels : List Level) (res : NodeId) :
    Honest (Program.cubeOfLevels levels res) := by
  induction levels generalizing res with
  | nil => exact .pure _
  | cons level levels ih => exact .bind (.mk _ _ _) fun _ => .step trivial fun _ => ih _

theorem levelsOf (vars : List Var) : Honest (Program.levelsOf vars) := by
  induction vars with
  | nil => exact .pure _
  | cons v vars ih => exact .step trivial fun _ => .bind ih fun _ => .pure _

end Honest

end Program

/-- The program of the request, if it has one, reports no error of its own but a conflict. -/
def Request.Honest (r : Request) : Prop :=
  match r.task with
  | .answer _ => True
  | .perform _ p _ => p.Honest

namespace Request.Honest

variable {operands : List NodeId}

theorem checked (f : NodeId) : Honest (Request.checked f) := trivial

theorem plain {p : Program NodeId} (hp : p.Honest) : Honest (Request.plain operands p) := hp

theorem bounded {p : Nat → Program NodeId} (hp : ∀ n, (p n).Honest) :
    Honest (Request.bounded operands p) := Program.Honest.step trivial hp

theorem exclusive {check : Manager → Except Failure Unit} {p : Nat → Program NodeId}
    (hp : ∀ n, (p n).Honest) : Honest (Request.exclusive check operands p) :=
  Program.Honest.step trivial hp

end Request.Honest

/-- No operator reports an error of its own but a conflict. -/
theorem Command.honest {c : Command} {r : Request} (hr : c.request? = some r) : r.Honest := by
  have cube (levels : List Level) : Program.Honest (Program.cube levels) := .cubeOfLevels _ _
  cases c <;> cases hr
  case makeNode level low high => exact Program.Honest.mk level low high
  case not f => exact .bounded fun n => .not f n
  case apply op l r => exact .bounded fun n => .apply op l r n
  case andMany fs => exact .plain (.applyMany .and fs _)
  case orMany fs => exact .plain (.applyMany .or fs _)
  case ite f g h => exact .bounded fun n => .ite f g h n
  case makeSet vars => exact Program.Honest.bind (.levelsOf vars) cube
  case quantify q f c =>
    unfold Request.quantify
    split
    · exact .checked f
    · exact .bounded fun n => .quantifyCube q f c n
  case appQuantify q op l r c =>
    unfold Request.appQuantify
    split
    · exact .bounded fun n => .apply op l r n
    · exact .bounded fun n => .applyQuantifyCube q op l r c n
  case restrict f c =>
    unfold Request.restrict
    split
    · exact .checked f
    · exact .bounded fun n => .restrictCube f c n
  case constrain f care => exact .bounded fun n => .constrain f care n
  case simplify f care => exact .bounded fun n => .simplify f care n
  case compose f g v =>
    exact Program.Honest.step trivial fun n => .step trivial fun level => .compose level f g n
  case vecCompose f number => exact Program.Honest.step trivial fun n => .vecComposeBy f number n
  case replace f number => exact Program.Honest.step trivial fun n => .renameBy f number n
  case satOne f =>
    unfold Request.satOne
    split
    · trivial
    · exact .exclusive fun n => .satOne f n
  case satOneSet f c polarity =>
    unfold Request.satOneSet
    dsimp only
    split
    · trivial
    · exact .exclusive fun n => .satOneSet polarity f c n
  case fullSatOne f =>
    unfold Request.fullSatOne
    split
    · exact .checked f
    · exact .exclusive fun n => .fullSatOneFromTop f n
  case support f => exact .plain (.step trivial cube)

end DecisionDiagram
