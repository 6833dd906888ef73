import JsonSelect.CommandLine
import JsonSelect.Document
import JsonSelect.Fault
import JsonSelect.Json.Basic
import JsonSelect.Json.Double
import JsonSelect.Json.Lexeme
import JsonSelect.Json.Literal
import JsonSelect.Json.Merge
import JsonSelect.Json.Object
import JsonSelect.Json.Printing
import JsonSelect.Json.Reading
import JsonSelect.Json.Written
import JsonSelect.Main
import JsonSelect.Projection
import JsonSelect.Proofs.Glyphs
import JsonSelect.Proofs.Steps
import JsonSelect.Request
import JsonSelect.Root
import JsonSelect.Selector.Basic
import JsonSelect.Selector.Index
import JsonSelect.Selector.Outline
import JsonSelect.Selector.Pick
import JsonSelect.Selector.Exclude
import JsonSelect.Selector.Prune
import JsonSelect.Selector.Reach
import JsonSelect.Selector.Reading
import JsonSelect.Selector.Retain
import JsonSelect.Session
import JsonSelect.Subset
import JsonSelect.Text.Blank
import JsonSelect.Text.DecimalDigit
import JsonSelect.Text.Integer
import JsonSelect.Text.Pattern
import JsonSelect.Window
import JsonSelect.Proofs.Words
import JsonSelect.Proofs.Grammar
import JsonSelect.Proofs.Addresses
import JsonSelect.Proofs.Braces
import JsonSelect.Proofs.Faults
import JsonSelect.Proofs.Verdict
import JsonSelect.Proofs.Sound
import JsonSelect.Proofs.Places
import JsonSelect.Proofs.Proper
import JsonSelect.Proofs.Pruning
import JsonSelect.Proofs.Exclusion
import JsonSelect.Proofs.Within
import JsonSelect.Proofs.Adding
import JsonSelect.Proofs.Inclusion
import JsonSelect.Proofs.Caching
import JsonSelect.Proofs.Runs
import JsonSelect.Proofs.Stages
import JsonSelect.Proofs.Exchange
import JsonSelect.Proofs.Marking
import JsonSelect.Proofs.Gathering
import JsonSelect.Proofs.Dependence
import JsonSelect.Proofs.Entries
import JsonSelect.Proofs.Joining
import JsonSelect.Proofs.Union
import JsonSelect.Proofs.Unmerged
import JsonSelect.Proofs.Batches
import JsonSelect.Proofs.Elements
import JsonSelect.Proofs.Counting
import JsonSelect.Proofs.Chains
import JsonSelect.Proofs.Occurrences
import JsonSelect.Proofs.Trying
import JsonSelect.Proofs.Keeping
import JsonSelect.Proofs.Numerals
import JsonSelect.Proofs.Bounds
import JsonSelect.Proofs.Brackets
import JsonSelect.Proofs.Streams
import JsonSelect.Proofs.Removing
import JsonSelect.Proofs.Repeating
import JsonSelect.Proofs.Dividing
import JsonSelect.Proofs.Suffixes
import JsonSelect.Proofs.Patterns
import JsonSelect.Proofs.Captures
import JsonSelect.Proofs.Scanning
import JsonSelect.Proofs.Buffers
