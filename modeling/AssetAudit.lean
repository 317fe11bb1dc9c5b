import AssetAudit.Main
import AssetAudit.Proofs.Matching
import AssetAudit.Proofs.Selection
import AssetAudit.Proofs.Canonical
import AssetAudit.Proofs.Variants
import AssetAudit.Proofs.Staging
import AssetAudit.Proofs.Flags
import AssetAudit.Proofs.ExitStatus
import AssetAudit.Proofs.Verbosity
import AssetAudit.Proofs.Lines
import AssetAudit.Proofs.Arrangement
import AssetAudit.Proofs.Conservation
import AssetAudit.Proofs.Scanning
import AssetAudit.Proofs.Wholeness
import AssetAudit.Proofs.Locality
import AssetAudit.Proofs.Pruning
import AssetAudit.Proofs.Links
import AssetAudit.Proofs.Spelling
import AssetAudit.Proofs.Decoding
import AssetAudit.Proofs.Verdicts
import AssetAudit.Proofs.Patterns
import AssetAudit.Proofs.Spans
import AssetAudit.Proofs.EveryPlace
import AssetAudit.Proofs.Runs
import AssetAudit.Proofs.Bytewise
import AssetAudit.Proofs.NameBytes
import AssetAudit.Proofs.Recording
import AssetAudit.Proofs.Duplicates
import AssetAudit.Proofs.Likeness
import AssetAudit.Proofs.Lexing
import AssetAudit.Proofs.Parsing
import AssetAudit.Proofs.Lossless
import AssetAudit.Proofs.Growing
import AssetAudit.Proofs.Roles
import AssetAudit.Proofs.Literals
import AssetAudit.Proofs.LastComponent
import AssetAudit.Proofs.Relative
