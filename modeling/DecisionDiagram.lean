import DecisionDiagram.Command
import DecisionDiagram.Proofs.Canonicity
import DecisionDiagram.Proofs.Handles
import DecisionDiagram.Proofs.Caching
import DecisionDiagram.Proofs.Connectives
import DecisionDiagram.Proofs.Suspension
import DecisionDiagram.Proofs.Interruption
import DecisionDiagram.Proofs.Listing
import DecisionDiagram.Proofs.Failure
import DecisionDiagram.Proofs.Shrinking
import DecisionDiagram.Proofs.Passes
import DecisionDiagram.Proofs.Windows
import DecisionDiagram.Proofs.Sifting
import DecisionDiagram.Proofs.Interactions
import DecisionDiagram.Proofs.Grouping
import DecisionDiagram.Proofs.Bounds
import DecisionDiagram.Proofs.Survival
import DecisionDiagram.Proofs.Refusal
import DecisionDiagram.Proofs.Freezing
import DecisionDiagram.Proofs.Fusion
import DecisionDiagram.Proofs.Substitution
import DecisionDiagram.Proofs.Renaming
import DecisionDiagram.Proofs.Restriction
import DecisionDiagram.Proofs.Orders
import DecisionDiagram.Proofs.Witnesses
import DecisionDiagram.Proofs.Supports
import DecisionDiagram.Proofs.Creation
import DecisionDiagram.Proofs.Allocation
import DecisionDiagram.Proofs.Placement
import DecisionDiagram.Proofs.Reorder.Partition
import DecisionDiagram.Proofs.Members
import DecisionDiagram.Proofs.Laminar
import DecisionDiagram.Proofs.Coverage
import DecisionDiagram.Proofs.Stamps
import DecisionDiagram.Proofs.Hashing
import DecisionDiagram.Proofs.Recall
import DecisionDiagram.Proofs.Exhaustion
import DecisionDiagram.Proofs.Extension
import DecisionDiagram.Proofs.Tearing
