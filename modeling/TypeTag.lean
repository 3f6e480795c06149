import TypeTag.Main
import TypeTag.Workspace.Basic
import TypeTag.Proofs.Renaming.Embedding
import TypeTag.Proofs.Tags.StableBases
import TypeTag.Proofs.SymbolTable.BaseType
import TypeTag.Proofs.NormalForm.Constructors
import TypeTag.Proofs.Tags.Singletons
import TypeTag.Proofs.Ty.Rules
import TypeTag.Proofs.SymbolTable.Rules
import TypeTag.Proofs.Descriptor.Mentions
import TypeTag.Proofs.Builds.BoundNames
import TypeTag.Proofs.Builds.Trails
import TypeTag.Proofs.Builds.AliasArguments
import TypeTag.Proofs.SymbolTable.Expansion
import TypeTag.Proofs.SymbolTable.AliasChains
import TypeTag.Proofs.SymbolTable.Hierarchy
import TypeTag.Proofs.SymbolTable.AncestorForms
import TypeTag.Proofs.Builds.Names
import TypeTag.Proofs.Tags.UnappliedInheritance
import TypeTag.Proofs.Tags.RoundTrip
import TypeTag.Proofs.Workspace.Runs
import TypeTag.Proofs.Builds.Nesting
import TypeTag.Proofs.Tags.ClosedBases
import TypeTag.Proofs.Tags.Grammar
import TypeTag.Proofs.Builds.Combinations
import TypeTag.Proofs.Builds.Canonical
import TypeTag.Proofs.Descriptor.Comparisons
import TypeTag.Proofs.SymbolTable.Calls
import TypeTag.Proofs.Tags.Rewriting
import TypeTag.Proofs.Tags.Success
import TypeTag.Proofs.Cache.Lifetimes
import TypeTag.Proofs.CommandLine.Output
import TypeTag.Proofs.SymbolTable.Specialisation
import TypeTag.Proofs.Builds.Termination
import TypeTag.Proofs.Builds.Flattening
import TypeTag.Proofs.Builds.Openings
import TypeTag.Proofs.SymbolTable.Linearisation
import TypeTag.Proofs.SymbolTable.EtaExpansion
import TypeTag.Proofs.Tags.EdgeSets
import TypeTag.Proofs.SymbolTable.Packages
import TypeTag.Proofs.NormalForm.Binders
import TypeTag.Proofs.Trail.Entries
import TypeTag.Proofs.Descriptor.Parameters
import TypeTag.Proofs.Descriptor.LongName
import TypeTag.Proofs.Tags.UniversalBases
import TypeTag.Proofs.SymbolTable.TermChains
