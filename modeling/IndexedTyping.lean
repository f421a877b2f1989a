import IndexedTyping.Main
import IndexedTyping.Proofs.Reduction.Leftmost
import IndexedTyping.Proofs.Reduction.Machine
import IndexedTyping.Proofs.OpenTy.Substitution
import IndexedTyping.Proofs.Store.Resolution
import IndexedTyping.Proofs.Store.Triangular
import IndexedTyping.Proofs.Check.Action
import IndexedTyping.Proofs.Check.Walk
import IndexedTyping.Proofs.Check.Law
import IndexedTyping.Proofs.Check.Reachable
import IndexedTyping.Proofs.OpenTy.Agreement
import IndexedTyping.Proofs.Store.Substitution
import IndexedTyping.Proofs.Unify.Depth
import IndexedTyping.Proofs.Unify.Solution
import IndexedTyping.Proofs.Unify.MostGeneral
import IndexedTyping.Proofs.Typing.Model
import IndexedTyping.Proofs.Check.Later
import IndexedTyping.Proofs.Typing.Sound
import IndexedTyping.Proofs.Typing.Program
import IndexedTyping.Proofs.Nameless.Basic
import IndexedTyping.Proofs.Nameless.Translation
import IndexedTyping.Proofs.Nameless.Comparison
import IndexedTyping.Proofs.Nameless.Substitution
import IndexedTyping.Proofs.Nameless.Confluence
import IndexedTyping.Proofs.Reduction.Conversion
import IndexedTyping.Proofs.Check.Lockstep
import IndexedTyping.Proofs.OpenTy.Keys
import IndexedTyping.Proofs.Check.Spelling
import IndexedTyping.Proofs.Check.Renaming
import IndexedTyping.Proofs.Unify.Circle
import IndexedTyping.Proofs.Unify.Termination
import IndexedTyping.Proofs.Check.Depth
import IndexedTyping.Proofs.Check.Stratified
import IndexedTyping.Proofs.Check.Termination
import IndexedTyping.Proofs.Check.Hereditary
import IndexedTyping.Proofs.Check.Satisfaction
import IndexedTyping.Proofs.OpenTy.Names
import IndexedTyping.Proofs.Check.TypeNames
import IndexedTyping.Proofs.Json.RoundTrip
import IndexedTyping.Proofs.Program.RoundTrip
import IndexedTyping.Proofs.Program.Grammar
import IndexedTyping.Proofs.Check.OccursCheck
import IndexedTyping.Proofs.Check.Judgments
import IndexedTyping.Proofs.Check.Scoping
import IndexedTyping.Proofs.Check.Brackets
import IndexedTyping.Proofs.Check.Weakening
import IndexedTyping.Proofs.Check.Expansion
import IndexedTyping.Proofs.History.Basic
import IndexedTyping.Proofs.History.Fresh
import IndexedTyping.Proofs.OpenTy.Equality
import IndexedTyping.Proofs.Unify.Strict
import IndexedTyping.Proofs.Unify.Stability
import IndexedTyping.Proofs.Unify.Symmetry
import IndexedTyping.Proofs.Check.Applications
import IndexedTyping.Proofs.Store.Lenient
import IndexedTyping.Proofs.Check.Assumptions
import IndexedTyping.Proofs.Unify.Known
import IndexedTyping.Proofs.Typing.Exact
import IndexedTyping.Proofs.Check.Composition
import IndexedTyping.Proofs.Store.Evaluation
import IndexedTyping.Proofs.Reduction.Renaming
import IndexedTyping.Proofs.OpenTy.Equivalence
import IndexedTyping.Proofs.Store.WrittenTypes
import IndexedTyping.Proofs.Text.Levenshtein
