import TraitCheck.Diagnostic.Report
import TraitCheck.Checker.Program
import TraitCheck.Proofs.Coherence
import TraitCheck.Proofs.Confinement
import TraitCheck.Proofs.Construction
import TraitCheck.Proofs.ExactCaptures
import TraitCheck.Proofs.ExactUpvalues
import TraitCheck.Proofs.FailedChecks
import TraitCheck.Proofs.FieldTypes
import TraitCheck.Proofs.Hints
import TraitCheck.Proofs.Instantiation
import TraitCheck.Proofs.Locations
import TraitCheck.Proofs.Matches
import TraitCheck.Proofs.NestingLimit
import TraitCheck.Proofs.Operators
import TraitCheck.Proofs.Resolving
import TraitCheck.Proofs.Shadowing
import TraitCheck.Proofs.Signatures
import TraitCheck.Proofs.Symmetry
import TraitCheck.Proofs.TraitBounds
import TraitCheck.Proofs.UniqueBinders
import TraitCheck.Proofs.WellShaped
import TraitCheck.Proofs.WholePrograms
import TraitCheck.Proofs.WritingBack
