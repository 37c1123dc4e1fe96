import MarkdownTree.Forest.Assign
import MarkdownTree.Forest.Compare
import MarkdownTree.Forest.Content
import MarkdownTree.Forest.Copy
import MarkdownTree.Forest.Description
import MarkdownTree.Forest.Heap
import MarkdownTree.Forest.WellFormed
import MarkdownTree.Log.Recorder
import MarkdownTree.Proofs.Relinking
import MarkdownTree.Revision.Pass
import MarkdownTree.Settings.Store
import MarkdownTree.Table.Rows
import MarkdownTree.Tabs.Document
import MarkdownTree.Proofs.Attaching
import MarkdownTree.Proofs.Replacing
import MarkdownTree.Proofs.CopiedRecords
import MarkdownTree.Proofs.Calls
import MarkdownTree.Proofs.CopiedTrees
import MarkdownTree.Proofs.Passes
import MarkdownTree.Proofs.PanelContent
import MarkdownTree.Proofs.TabsGrowth
import MarkdownTree.Proofs.Reachable
import MarkdownTree.Proofs.Places
import MarkdownTree.Proofs.Offered
import MarkdownTree.Proofs.OfferedOnce
import MarkdownTree.Proofs.PassSteps
import MarkdownTree.Proofs.PassEnds
import MarkdownTree.Proofs.FinalNodes
import MarkdownTree.Proofs.SplicedNodes
import MarkdownTree.Proofs.Within
import MarkdownTree.Proofs.FailingFast
import MarkdownTree.Proofs.MatchingCopies
import MarkdownTree.Proofs.Building
import MarkdownTree.Proofs.Wrapping
import MarkdownTree.Proofs.Trees
import MarkdownTree.Proofs.TreeRewriting
import MarkdownTree.Proofs.TreeRefinement
import MarkdownTree.Proofs.Expansion
import MarkdownTree.Proofs.Tasks
import MarkdownTree.Proofs.PassRuns
import MarkdownTree.Proofs.TabsVisitor
import MarkdownTree.Proofs.TabsSteps
import MarkdownTree.Proofs.TabsDivide
import MarkdownTree.Proofs.TabsExpanded
import MarkdownTree.Proofs.TabsContent
import MarkdownTree.Proofs.TabBlocks
import MarkdownTree.Proofs.StashedTabs
import MarkdownTree.Proofs.StashRuns
import MarkdownTree.Proofs.TabGroups
import MarkdownTree.Proofs.EqualTrees
import MarkdownTree.Proofs.StashedContent
import MarkdownTree.Proofs.Fences
import MarkdownTree.Proofs.FencedOperations
import MarkdownTree.Proofs.FencedCopies
import MarkdownTree.Proofs.FencedPasses
import MarkdownTree.Proofs.CopiedHandles
import MarkdownTree.Proofs.FencedHandles
import MarkdownTree.Proofs.Handles
import MarkdownTree.Proofs.Independence
import MarkdownTree.Proofs.SingleObjects
import MarkdownTree.Proofs.LiveChanges
import MarkdownTree.Proofs.Renamings
import MarkdownTree.Proofs.RenamedPasses
import MarkdownTree.Proofs.RenamedTabs
import MarkdownTree.Proofs.UntitledTabs
import MarkdownTree.Proofs.RenamedBlocks
import MarkdownTree.Proofs.Counterparts
import MarkdownTree.Proofs.CommutingCopies
import MarkdownTree.Proofs.FlatDocuments
import MarkdownTree.Proofs.SettledSettings
import MarkdownTree.Proofs.MadeSettings
import MarkdownTree.Proofs.DuplicatedNodes
import MarkdownTree.Proofs.JudgedChoices
import MarkdownTree.Proofs.MappedCopies
import MarkdownTree.Proofs.Destinations
import MarkdownTree.Proofs.Refusals
import MarkdownTree.Proofs.UnreadSources
import MarkdownTree.Proofs.StandardLibraries
import MarkdownTree.Proofs.ReloadedSettings
import MarkdownTree.Proofs.SettingsPrecedence
import MarkdownTree.Proofs.DefaultFiles
import MarkdownTree.Proofs.ReplacedFiles
import MarkdownTree.Proofs.FieldVariables
import MarkdownTree.Proofs.BackwardIndices
import MarkdownTree.Proofs.UntouchedNodes
import MarkdownTree.Proofs.ExpandedNodes
import MarkdownTree.Proofs.KeepingPasses
import MarkdownTree.Proofs.SettledTabs
import MarkdownTree.Proofs.MarkupBlocks
import MarkdownTree.Proofs.TitledPanels
import MarkdownTree.Proofs.ReadableTabs
import MarkdownTree.Proofs.EscapedText
import MarkdownTree.Proofs.TabIdentifiers
import MarkdownTree.Proofs.TabsLog
import MarkdownTree.Proofs.InjectedMarkup
import MarkdownTree.Proofs.TreeOrders
import MarkdownTree.Proofs.DividedChildren
import MarkdownTree.Proofs.EqualValues
import MarkdownTree.Proofs.ComparedTrees
import MarkdownTree.Proofs.EqualCopies
import MarkdownTree.Proofs.TableRows
import MarkdownTree.Proofs.LiveRows
import MarkdownTree.Proofs.TextsInOrder
import MarkdownTree.Proofs.SiblingNavigation
import MarkdownTree.Proofs.ConsoleOutput
import MarkdownTree.Proofs.SubstitutedLists
import MarkdownTree.Proofs.LiveRevisions
