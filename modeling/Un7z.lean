import Un7z.Proofs.WorkBudget
import Un7z.Proofs.PackStreams
import Un7z.Proofs.HeaderGrammar
import Un7z.Proofs.ExtractionPaths
import Un7z.Proofs.SplitArchives
import Un7z.Proofs.Interruptions
import Un7z.Proofs.ExternalFolders
import Un7z.Proofs.EscapeEstimator
import Un7z.Proofs.ZstandardHeaders
import Un7z.Proofs.X86Filter
import Un7z.Proofs.X86Codec
import Un7z.Proofs.Bcj2Streams
import Un7z.Proofs.PowerPc
import Un7z.Proofs.RiscvFilter
import Un7z.Proofs.FolderGraphs
import Un7z.Proofs.SignatureScan
import Un7z.Proofs.HeaderLayers
import Un7z.Proofs.Deflate64Trees
import Un7z.Proofs.LzmaStreams
import Un7z.Proofs.LzmaResets
import Un7z.Proofs.LzmaSymbols
import Un7z.Proofs.SafePaths
import Un7z.Proofs.EntryStreams
import Un7z.Proofs.SubstreamVectors
import Un7z.Proofs.MemberCalls
import Un7z.Proofs.LzwSafety
import Un7z.Proofs.StreamDetection
import Un7z.Proofs.Rescaling
import Un7z.Proofs.DeltaFilter
import Un7z.Proofs.Checksums
import Un7z.Proofs.ConcatenatedStreams
import Un7z.Proofs.Deflate64Acceptance
import Un7z.Proofs.LzwStreams
import Un7z.Proofs.ExtractedStreams
import Un7z.Proofs.AesCoder
import Un7z.Proofs.LzmaCodec
import Un7z.Proofs.FolderEquations
