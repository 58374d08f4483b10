import FuzzyHierarchy.Listing.Writing
import FuzzyHierarchy.Settings.Text
import FuzzyHierarchy.Proofs.Classifier.EvaluationOrder
import FuzzyHierarchy.Proofs.Declaration.Acceptance
import FuzzyHierarchy.Proofs.Classifier.Reporting
import FuzzyHierarchy.Proofs.Classifier.Faultless
import FuzzyHierarchy.Proofs.Graph.Coherence
import FuzzyHierarchy.Proofs.Graph.Extension
import FuzzyHierarchy.Proofs.Registry.Extension
import FuzzyHierarchy.Proofs.Declaration.Extension
import FuzzyHierarchy.Proofs.Registry.Rearrangement
import FuzzyHierarchy.Proofs.Declaration.Rearrangement
import FuzzyHierarchy.Proofs.Classifier.Admission
import FuzzyHierarchy.Proofs.Registry.Similarity
import FuzzyHierarchy.Proofs.Classifier.Similarity
import FuzzyHierarchy.Proofs.Registry.Failure
import FuzzyHierarchy.Proofs.Classifier.Repair
import FuzzyHierarchy.Proofs.Listing.Line
import FuzzyHierarchy.Proofs.Listing.Injective
import FuzzyHierarchy.Proofs.Classifier.Edges
import FuzzyHierarchy.Proofs.Classifier.Refusal
import FuzzyHierarchy.Proofs.Graph.BackwardEdges
import FuzzyHierarchy.Proofs.Graph.RepeatedEdges
import FuzzyHierarchy.Proofs.Classifier.RegistrationOrder
import FuzzyHierarchy.Proofs.Classifier.Repetition
import FuzzyHierarchy.Proofs.Classifier.Searching
import FuzzyHierarchy.Proofs.Classifier.Sequence
import FuzzyHierarchy.Proofs.Declaration.Redeclaration
import FuzzyHierarchy.Proofs.Registry.Nearest
import FuzzyHierarchy.Proofs.Classifier.Inheritance
import FuzzyHierarchy.Proofs.Classifier.LocalScope
import FuzzyHierarchy.Proofs.Classifier.Lookups
import FuzzyHierarchy.Proofs.Symbols.Equality
import FuzzyHierarchy.Proofs.Symbols.Calls
import FuzzyHierarchy.Proofs.Report.Emissions
import FuzzyHierarchy.Proofs.Report.Wording
import FuzzyHierarchy.Proofs.Listing.Writing
