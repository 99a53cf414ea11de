import ProcessLogic.Automaton.Listing
import ProcessLogic.Formula.Order
import ProcessLogic.Main
import ProcessLogic.Proofs.Analysis.Transfer
import ProcessLogic.Proofs.Automaton.Provenance
import ProcessLogic.Proofs.Compiler.Determinism
import ProcessLogic.Proofs.Formula.Reading
import ProcessLogic.Proofs.Residual.Finite
import ProcessLogic.Proofs.Search.Limit
import ProcessLogic.Proofs.Compiler.Stages
import ProcessLogic.Proofs.Analysis.Soundness
import ProcessLogic.Proofs.Description.Meaning
import ProcessLogic.Proofs.Description.Interpretation
import ProcessLogic.Proofs.Formula.Refusal
import ProcessLogic.Proofs.Description.Soundness
import ProcessLogic.Proofs.Description.Refusal
import ProcessLogic.Proofs.Residual.Subformulas
import ProcessLogic.Proofs.Compiler.Termination
import ProcessLogic.Proofs.Formula.Unfolding
import ProcessLogic.Proofs.Constraint.Counting
import ProcessLogic.Proofs.Constraint.Ordering
import ProcessLogic.Proofs.Automaton.CompletedLanguage
import ProcessLogic.Proofs.Automaton.Distance
import ProcessLogic.Proofs.Automaton.Canonical
import ProcessLogic.Proofs.Description.Rereading
import ProcessLogic.Proofs.Model.Written
import ProcessLogic.Proofs.Model.Conditions
import ProcessLogic.Proofs.Residual.Reduced
import ProcessLogic.Proofs.Residual.Sharing
import ProcessLogic.Proofs.Text.Tiling
