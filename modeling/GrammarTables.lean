import GrammarTables.Main
import GrammarTables.Proofs.CoreAutomaton
import GrammarTables.Proofs.CyclicDerivations
import GrammarTables.Proofs.DepthFirst
import GrammarTables.Proofs.ForeignSymbols
import GrammarTables.Proofs.Hierarchy
import GrammarTables.Proofs.ItemClosure
import GrammarTables.Proofs.LeftContexts
import GrammarTables.Proofs.LeftRecursion
import GrammarTables.Proofs.LexemePlaces
import GrammarTables.Proofs.MergedLists
import GrammarTables.Proofs.MergedLookaheads
import GrammarTables.Proofs.MergedStates
import GrammarTables.Proofs.PredictiveHierarchy
import GrammarTables.Proofs.PrintedRules
import GrammarTables.Proofs.ReachableRules
import GrammarTables.Proofs.Recognition
import GrammarTables.Proofs.Reductions
import GrammarTables.Proofs.Refusals
import GrammarTables.Proofs.ReportedClashes
import GrammarTables.Proofs.RuleOrder
import GrammarTables.Proofs.Unambiguity
import GrammarTables.Proofs.VanishingTrees
import GrammarTables.Proofs.ViablePrefix
import GrammarTables.Proofs.WordLimits
