import LeanCtx.Effect
import LeanCtx.OrdMap
import LeanCtx.Word
import LeanCtx.WorkGraph
import LeanCtx.WorkGraphOps
import LeanCtx.Ledger
import LeanCtx.WorkGraphTree
import LeanCtx.WorkGraphSteps
import LeanCtx.WorkGraphOutcomes
import LeanCtx.WorkGraphInvariant
import LeanCtx.WorkGraphBudget
import LeanCtx.WorkGraphValidator
import LeanCtx.WorkGraphStore
import LeanCtx.WorkGraphReserve
import LeanCtx.WorkGraphNodes
import LeanCtx.WorkGraphCore
import LeanCtx.WorkGraphChains
import LeanCtx.WorkGraphSound
import LeanCtx.HiveFold
import LeanCtx.WorkGraphValid
import LeanCtx.HiveConverge
import LeanCtx.Delimited
import LeanCtx.HybridClock
import LeanCtx.SavingsLedger
import LeanCtx.AgentLease
import LeanCtx.AgentLeaseExclusion
import LeanCtx.AgentLeaseFence
import LeanCtx.AgentLeaseFair
import LeanCtx.HandoffMerge
import LeanCtx.HandoffMergeSet
import LeanCtx.ByteText
import LeanCtx.ExecutionLedger
import LeanCtx.ExecutionStore
import LeanCtx.ExecutionRecovery
import LeanCtx.ExecutionHistory
import LeanCtx.AuditTrail
import LeanCtx.AuditCheckpoint
import LeanCtx.AuditResume
import LeanCtx.Policy
import LeanCtx.PolicyFloor
import LeanCtx.JsonCrush
import LeanCtx.JsonCrushExact
import LeanCtx.RelayReplay
import LeanCtx.RelayReplayOnce
import LeanCtx.ContextBus
import LeanCtx.ContextBusOrder
import LeanCtx.TextFile
import LeanCtx.SavingsChain
import LeanCtx.SavingsChainValid
import LeanCtx.KnowledgeJournal
import LeanCtx.KnowledgeJournalOrder
import LeanCtx.InvertedIndex
import LeanCtx.SearchIndex
import LeanCtx.SearchIndexRebuild
import LeanCtx.SearchIndexFaithful
import LeanCtx.SearchIndexEdit
import LeanCtx.SearchIndexConsistent
import LeanCtx.SearchRanking
import LeanCtx.SearchRankingServed
import LeanCtx.SearchRankingGated
import LeanCtx.ShapeXlat
import LeanCtx.ShapeXlatStream
import LeanCtx.ShapeXlatWellFormed
import LeanCtx.ShapeXlatAssemble
import LeanCtx.ShapeXlatWhole
import LeanCtx.TaskAuthority
import LeanCtx.TaskStore
import LeanCtx.TaskStoreOnce
import LeanCtx.HistoryPrune
import LeanCtx.BloomFilter
import LeanCtx.HivePurged
import LeanCtx.LineIndex
import LeanCtx.WorkGraphFusion
import LeanCtx.WorkGraphStop
import LeanCtx.Splice
import LeanCtx.AnchorEdits
import LeanCtx.SpliceFrame
import LeanCtx.AnchorText
import LeanCtx.TextSearch
import LeanCtx.EditTool
import LeanCtx.EditToolPlaces
import LeanCtx.HandoffMergeAuthority
import LeanCtx.ShellDelegation
import LeanCtx.Glob
import LeanCtx.ModelPattern
import LeanCtx.Absorb
import LeanCtx.AuditTail
import LeanCtx.CardMasked
import LeanCtx.Consolidate
import LeanCtx.KnowledgeCurrent
import LeanCtx.KnowledgePreview
import LeanCtx.KnowledgeQuery
import LeanCtx.KnowledgeRecall
import LeanCtx.Memo
import LeanCtx.PolicyResolve
import LeanCtx.SavingsCache
import LeanCtx.Substitution
import LeanCtx.SymbolFailures
import LeanCtx.CanonicalJson
import LeanCtx.Csv
import LeanCtx.JsonGrammar
import LeanCtx.Jsonc
import LeanCtx.ReceiptChain
import LeanCtx.SearchIndexParallel
import LeanCtx.SearchIndexStale
import LeanCtx.StructuredCompact
import LeanCtx.TabularCrush
import LeanCtx.MarkdownCompact
import LeanCtx.AutoDict
import LeanCtx.AutoDictLegend
import LeanCtx.AutoDictRoundTrip
import LeanCtx.ContextCompiler
import LeanCtx.DeadLetters
import LeanCtx.DeadLettersReload
import LeanCtx.HtmlArticle
import LeanCtx.HtmlRoundTrip
import LeanCtx.ImportCycles
import LeanCtx.JsoncBytes
import LeanCtx.OutcomeLineage
import LeanCtx.ToolDedup
import LeanCtx.ToolDedupRebuilt
import LeanCtx.ToolDedupRequest
import LeanCtx.ChunkOrder
import LeanCtx.LosslessCollapse
import LeanCtx.PathExpand
import LeanCtx.RulesFile
import LeanCtx.SearchDelta
import LeanCtx.ScanReplace
import LeanCtx.TextDecode
import LeanCtx.Untrusted
import LeanCtx.RulesRun
import LeanCtx.TextDecodeLines
import LeanCtx.RelayReplayLawful
import LeanCtx.StdioFrames
import LeanCtx.HiveReconcile
