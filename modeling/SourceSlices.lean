import SourceSlices.Chunk.Json
import SourceSlices.Main
import SourceSlices.Proofs.AcceptedChunks
import SourceSlices.Proofs.AcceptedMetadata
import SourceSlices.Proofs.BatchOrder
import SourceSlices.Proofs.ContentDigests
import SourceSlices.Proofs.CrossReferences
import SourceSlices.Proofs.DelegatedLines
import SourceSlices.Proofs.Deletion
import SourceSlices.Proofs.EarlierViews
import SourceSlices.Proofs.ExactForest
import SourceSlices.Proofs.ExactParts
import SourceSlices.Proofs.FileBatch
import SourceSlices.Proofs.FirstSeen
import SourceSlices.Proofs.FrontBlocks
import SourceSlices.Proofs.GreedySplit
import SourceSlices.Proofs.HandlerChoice
import SourceSlices.Proofs.HeadingTree
import SourceSlices.Proofs.KeptManifest
import SourceSlices.Proofs.LastBatches
import SourceSlices.Proofs.LeadingParts
import SourceSlices.Proofs.LineLookup
import SourceSlices.Proofs.LinkedDelegation
import SourceSlices.Proofs.LinkedForest
import SourceSlices.Proofs.LinkedHosts
import SourceSlices.Proofs.LinkedLeaves
import SourceSlices.Proofs.LinkedResults
import SourceSlices.Proofs.LockAdvice
import SourceSlices.Proofs.LosslessSplit
import SourceSlices.Proofs.MarkupOwners
import SourceSlices.Proofs.ModuleCode
import SourceSlices.Proofs.Namesakes
import SourceSlices.Proofs.OtherBatches
import SourceSlices.Proofs.OtherFiles
import SourceSlices.Proofs.OverlookedLinks
import SourceSlices.Proofs.ParentLinks
import SourceSlices.Proofs.RecordedSymbols
import SourceSlices.Proofs.Restaging
import SourceSlices.Proofs.RowOrder
import SourceSlices.Proofs.RunAccounts
import SourceSlices.Proofs.SavedSettings
import SourceSlices.Proofs.ScopedFiles
import SourceSlices.Proofs.SectionCover
import SourceSlices.Proofs.SelectorLists
import SourceSlices.Proofs.SharedPaths
import SourceSlices.Proofs.SplitChunks
import SourceSlices.Proofs.SymbolForest
import SourceSlices.Proofs.TextBlocks
import SourceSlices.Proofs.TextPipeline
import SourceSlices.Proofs.WholeVersions
import SourceSlices.Recomposition.Json
import SourceSlices.Run.Outcome
