import BindBlocks.Archive.Lookup
import BindBlocks.MapDocument.Reader
import BindBlocks.Proofs.Anchors
import BindBlocks.Proofs.BindingTokens
import BindBlocks.Proofs.Bindings
import BindBlocks.Proofs.BlockContent
import BindBlocks.Proofs.Blocks
import BindBlocks.Proofs.Blockwise
import BindBlocks.Proofs.Boundary
import BindBlocks.Proofs.Carry
import BindBlocks.Proofs.Codec
import BindBlocks.Proofs.Commit
import BindBlocks.Proofs.ContentTokens
import BindBlocks.Proofs.Digits
import BindBlocks.Proofs.Lexemes
import BindBlocks.Proofs.Lexing
import BindBlocks.Proofs.LineOrder
import BindBlocks.Proofs.Lines
import BindBlocks.Proofs.Lookups
import BindBlocks.Proofs.Places
import BindBlocks.Proofs.SourceOrder
import BindBlocks.Proofs.Substitution
import BindBlocks.Proofs.Tiling
import BindBlocks.Proofs.Untouched
import BindBlocks.Proofs.Weave
import BindBlocks.Proofs.WrittenDocuments
import BindBlocks.Proofs.WrittenJson
import BindBlocks.Proofs.Splicing
import BindBlocks.Proofs.TopLevel
import BindBlocks.Proofs.Histories
import BindBlocks.Proofs.Rows
import BindBlocks.Proofs.OpenCode
import BindBlocks.Proofs.PlainRows
import BindBlocks.Proofs.TokenEnds
import BindBlocks.Proofs.EditedTokens
import BindBlocks.Proofs.FunctionBodies
import BindBlocks.Proofs.Glance
import BindBlocks.Proofs.DigitGroups
import BindBlocks.Proofs.Expressions
import BindBlocks.Proofs.Survivors
import BindBlocks.Proofs.ForeignMaps
import BindBlocks.Proofs.LiteralGrammar
import BindBlocks.Proofs.MeasuredLookups
import BindBlocks.Proofs.GivingOrder
import BindBlocks.Proofs.Diagnostics
import BindBlocks.Proofs.Positions
import BindBlocks.Proofs.Tables
import BindBlocks.Proofs.BraceStack
import BindBlocks.Proofs.Octets
import BindBlocks.Proofs.OffsetScans
