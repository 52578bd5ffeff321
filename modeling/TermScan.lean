import TermScan.Text
import TermScan.Pattern.Basic
import TermScan.Pattern.Printer
import TermScan.Pattern.Parser
import TermScan.Pattern.Expansion
import TermScan.Pattern.RegexSource
import TermScan.Ring
import TermScan.Interval.Set
import TermScan.EdgeMap
import TermScan.Transform.Builtin
import TermScan.Error
import TermScan.Match
import TermScan.Options
import TermScan.Trie.Links
import TermScan.Whitelist
import TermScan.Automaton.Cursor
import TermScan.Automaton.Session
import TermScan.RegexMatcher
import TermScan.Journal
import TermScan.Toml.Document
import TermScan.Config.Load
import TermScan.Proofs.EdgeMap
import TermScan.Proofs.Pattern.RoundTrip
import TermScan.Proofs.Pattern.Tokens
import TermScan.Proofs.Trie.Prefixes
import TermScan.Proofs.Trie.Suffixes
import TermScan.Proofs.Trie.Chains
import TermScan.Proofs.Interval.Containment
import TermScan.Proofs.Pattern.Matching
import TermScan.Proofs.Places
import TermScan.Proofs.Ring
import TermScan.Proofs.Automaton.Variants
import TermScan.Proofs.Automaton.Scan
import TermScan.Proofs.Automaton.Exactness
import TermScan.Proofs.Automaton.Cursor
import TermScan.Proofs.Automaton.Limit
import TermScan.Proofs.Pattern.Preference
import TermScan.RegexSearch
import TermScan.RegexScan
import TermScan.Proofs.Regex.Search
import TermScan.Proofs.Regex.Meaning
import TermScan.Proofs.Sorting
import TermScan.Proofs.Regex.Agreement
import TermScan.Proofs.Interval.Growth
import TermScan.Proofs.Whitelist
import TermScan.Proofs.Automaton.Order
import TermScan.Proofs.Pattern.Choices
import TermScan.Proofs.Regex.Optionals
import TermScan.Proofs.Regex.Scan
import TermScan.Proofs.Standing
import TermScan.Proofs.Regex.Boundaries
import TermScan.Proofs.Automaton.Session
import TermScan.Proofs.Reordering
import TermScan.Proofs.Slices
import TermScan.Proofs.Pattern.Expansion
import TermScan.Proofs.Transform.Runs
import TermScan.Proofs.Transform.Collapse
import TermScan.Proofs.Transform.Composition
import TermScan.Proofs.Transform.Spaces
import TermScan.Proofs.Whitelist.Contexts
import TermScan.Proofs.Pattern.Faults
import TermScan.Interval.Arena
import TermScan.Proofs.Interval.Arena
import TermScan.Proofs.Interval.Balance
import TermScan.Proofs.Transform.Session
import TermScan.Proofs.Validation
import TermScan.Proofs.EarlyExit
import TermScan.Proofs.Transform.English
import TermScan.Proofs.Config.Readers
import TermScan.Proofs.Config.Warnings
import TermScan.Trie.Build
import TermScan.Proofs.Trie.Build
import TermScan.Trie.Nearest
import TermScan.Automaton.Builder
import TermScan.Automaton.Traversal
import TermScan.Automaton.Machine
import TermScan.Proofs.Trie.Outputs
import TermScan.Proofs.Trie.Nearest
import TermScan.Proofs.Automaton.Builder
import TermScan.Proofs.Automaton.Chains
import TermScan.Proofs.Automaton.Traversal
import TermScan.Proofs.Automaton.Machine
import TermScan.Proofs.Automaton.Counts
