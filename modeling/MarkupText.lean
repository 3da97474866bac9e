import MarkupText.Main
import MarkupText.Proofs.Agreement
import MarkupText.Proofs.Bisection
import MarkupText.Proofs.Blocks
import MarkupText.Proofs.Breaks
import MarkupText.Proofs.BufferReadings
import MarkupText.Proofs.ByteLexer
import MarkupText.Proofs.ByteOffsets
import MarkupText.Proofs.ByteReadings
import MarkupText.Proofs.ByteSearches
import MarkupText.Proofs.ByteTokens
import MarkupText.Proofs.CaselessLexing
import MarkupText.Proofs.Closings
import MarkupText.Proofs.Coalescing
import MarkupText.Proofs.Constructs
import MarkupText.Proofs.Copies
import MarkupText.Proofs.Coverage
import MarkupText.Proofs.CutTitles
import MarkupText.Proofs.Cuts
import MarkupText.Proofs.Derivations
import MarkupText.Proofs.Digits
import MarkupText.Proofs.Excerpts
import MarkupText.Proofs.Exclusion
import MarkupText.Proofs.Grammar
import MarkupText.Proofs.HeldPieces
import MarkupText.Proofs.Histories
import MarkupText.Proofs.JsonTexts
import MarkupText.Proofs.LetterCase
import MarkupText.Proofs.LineBlocks
import MarkupText.Proofs.LineSplits
import MarkupText.Proofs.Lines
import MarkupText.Proofs.LookupOrder
import MarkupText.Proofs.LookupSeats
import MarkupText.Proofs.Lookups
import MarkupText.Proofs.Lossless
import MarkupText.Proofs.Merging
import MarkupText.Proofs.Moves
import MarkupText.Proofs.Nesting
import MarkupText.Proofs.Numerals
import MarkupText.Proofs.NumericValues
import MarkupText.Proofs.Origins
import MarkupText.Proofs.Outlines
import MarkupText.Proofs.Passages
import MarkupText.Proofs.Pieces
import MarkupText.Proofs.Placement
import MarkupText.Proofs.PlainLexer
import MarkupText.Proofs.Provenance
import MarkupText.Proofs.Recalls
import MarkupText.Proofs.RecordReadings
import MarkupText.Proofs.References
import MarkupText.Proofs.Regions
import MarkupText.Proofs.RepeatedQueries
import MarkupText.Proofs.Reports
import MarkupText.Proofs.Reproduction
import MarkupText.Proofs.Restarts
import MarkupText.Proofs.Sentences
import MarkupText.Proofs.Separators
import MarkupText.Proofs.SettingsTexts
import MarkupText.Proofs.Slices
import MarkupText.Proofs.Spellings
import MarkupText.Proofs.Squeezing
import MarkupText.Proofs.StoreCalls
import MarkupText.Proofs.Stores
import MarkupText.Proofs.Swaps
import MarkupText.Proofs.Tables
import MarkupText.Proofs.TagEnds
import MarkupText.Proofs.TagScans
import MarkupText.Proofs.TagsWithin
import MarkupText.Proofs.Tilings
import MarkupText.Proofs.TitleEndings
import MarkupText.Proofs.TitleWords
import MarkupText.Proofs.Trimming
import MarkupText.Proofs.Truncations
import MarkupText.Proofs.Unmerged
import MarkupText.Proofs.Visibility
import MarkupText.Proofs.Windows
import MarkupText.Proofs.Writers
import MarkupText.Session
