import QCFuse.Guarantees.ChunkCacheRoundTrip
import QCFuse.Guarantees.QueryCacheRoundTrip
import QCFuse.Guarantees.DigestPairing
import QCFuse.Guarantees.NoDeadlock
import QCFuse.Guarantees.LoaderProvenance
import QCFuse.Guarantees.ValidatorSoundness
import QCFuse.Guarantees.CrashConsistency
import QCFuse.Guarantees.BatchIndependence
import QCFuse.Guarantees.BlendHomogeneity
import QCFuse.Guarantees.BatchCoordinates
import QCFuse.Guarantees.FutureHandOff
import QCFuse.Guarantees.BlendRounds
import QCFuse.Guarantees.StaleLoaders
import QCFuse.Guarantees.SessionIsolation
import QCFuse.Guarantees.OfflineIsolation
import QCFuse.Guarantees.PagedAllocation
import QCFuse.Guarantees.RadixRuns
import QCFuse.Guarantees.PrefillRounds
import QCFuse.Guarantees.RowIntegrity
import QCFuse.Guarantees.NgramRanks
import QCFuse.Guarantees.LoraIntegrity
import QCFuse.Guarantees.ControlCalls
import QCFuse.Guarantees.StreamedOutput
import QCFuse.Guarantees.GrammarAgreement
import QCFuse.Guarantees.LoraCounts
import QCFuse.Guarantees.SaltIsolation
import QCFuse.Guarantees.AdmittedLayouts
import QCFuse.Guarantees.IdleFlush
import QCFuse.Guarantees.AugmentedLayouts
import QCFuse.Guarantees.SeparatorSplitting
import QCFuse.Guarantees.DigestChoice
import QCFuse.Guarantees.TokenSelection
import QCFuse.Guarantees.RaggedMasks
import QCFuse.Guarantees.QueryReadPaths
import QCFuse.Guarantees.ExpertMigration
import QCFuse.Guarantees.SplitImportance
import QCFuse.Guarantees.StoppingPosition
import QCFuse.Guarantees.WindowMatch
import QCFuse.Guarantees.DfsOrder
import QCFuse.Guarantees.QueryRows
import QCFuse.Guarantees.SelectionInputs
import QCFuse.Guarantees.PreemptionBudget
import QCFuse.Source.InputLogprobs
import QCFuse.Guarantees.LaunchedRows
import QCFuse.Guarantees.ChunkedLogprobs
import QCFuse.Library.Utf8
import QCFuse.Source.StopMatching
import QCFuse.Guarantees.StopStrings
import QCFuse.Source.CacheReuse
import QCFuse.Guarantees.ReuseCheck
import QCFuse.Source.KvSlices
import QCFuse.Guarantees.HeadSlices
import QCFuse.Guarantees.NgramTrees
import QCFuse.Source.PrefillTransfer
import QCFuse.Guarantees.KvChunks
import QCFuse.Source.GrammarMask
import QCFuse.Guarantees.GrammarMasks
import QCFuse.Library.LargestClosed
import QCFuse.Source.EagleDraft
import QCFuse.Guarantees.EagleTree
import QCFuse.Source.Detokenizer
import QCFuse.Guarantees.IncrementalText
import QCFuse.Library.Search
import QCFuse.Source.ReasoningParser
import QCFuse.Guarantees.ReasoningChunks
import QCFuse.Library.LeastLoaded
import QCFuse.Source.DpBudget
import QCFuse.Guarantees.BudgetedDispatch
import QCFuse.Source.ReasonerGrammar
import QCFuse.Guarantees.ReasonerRefinement
import QCFuse.Source.InputBlocker
import QCFuse.Guarantees.InputBlocking
import QCFuse.Library.Segments
import QCFuse.Source.TwoBatchOverlap
import QCFuse.Guarantees.TwoBatchSplit
import QCFuse.Source.DecodePrealloc
import QCFuse.Guarantees.DecodePreallocation
import QCFuse.Source.BatchExpansion
import QCFuse.Source.PositionSpans
import QCFuse.Guarantees.SpanCoalescing
import QCFuse.Source.RwLock
import QCFuse.Guarantees.RwLockWakeups
import QCFuse.Guarantees.PromptParameters
import QCFuse.Source.SessionController
import QCFuse.Guarantees.SessionTrees
import QCFuse.Source.PageMetadata
import QCFuse.Guarantees.PageOwnership
import QCFuse.Guarantees.AdmittedAllocation
import QCFuse.Library.Replication
import QCFuse.Source.ExpertBalancer
import QCFuse.Library.IndexPerm
import QCFuse.Guarantees.ExpertDispatch
import QCFuse.Guarantees.ExpertLocations
import QCFuse.Guarantees.ExpertLoads
