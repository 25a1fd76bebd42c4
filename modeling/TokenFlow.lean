import TokenFlow.Main
import TokenFlow.Proofs.DepthLimit
import TokenFlow.Proofs.Passes
import TokenFlow.Proofs.PathCover
import TokenFlow.Proofs.PathWitness
import TokenFlow.Proofs.Provenance
import TokenFlow.Proofs.Recoding
import TokenFlow.Proofs.Renaming
import TokenFlow.Proofs.ScopeIsolation
import TokenFlow.Proofs.Comments
import TokenFlow.Proofs.CommentedReads
import TokenFlow.Proofs.CommentTables
import TokenFlow.Proofs.CommentIndependence
import TokenFlow.Proofs.StatementSequences
import TokenFlow.Proofs.KnownLeaves
import TokenFlow.Proofs.ValuesAsStatements
import TokenFlow.Proofs.SingleDefinitions
import TokenFlow.Proofs.Renumbering
import TokenFlow.Proofs.BatchEntries
import TokenFlow.Proofs.PathSteps
import TokenFlow.Proofs.CollectedFiles
import TokenFlow.Proofs.StatementReads
import TokenFlow.Proofs.ActsByName
import TokenFlow.Proofs.MoreDefinitions
import TokenFlow.Proofs.LiveNames
import TokenFlow.Proofs.ClosedDefinitions
import TokenFlow.Proofs.AssembledEdges
import TokenFlow.Proofs.FoldTables
import TokenFlow.Proofs.FoldedEdges
import TokenFlow.Proofs.NestingLevels
import TokenFlow.Proofs.UnlimitedWalks
import TokenFlow.Proofs.ClauseChains
import TokenFlow.Proofs.NestedClauses
import TokenFlow.Proofs.PushedTokens
import TokenFlow.Proofs.TreeTokens
import TokenFlow.Proofs.ParallelBindings
import TokenFlow.Proofs.MergedAlternatives
import TokenFlow.Proofs.OctetOrder
import TokenFlow.Proofs.DecodedTexts
import TokenFlow.Proofs.CanonicalEdges
