import AutomatonDump.Text.Basic
import AutomatonDump.Text.Lines
import AutomatonDump.Proofs.Text.ByteOrder
import AutomatonDump.Shape.Basic
import AutomatonDump.Label.Lexicon
import AutomatonDump.Automaton.Basic
import AutomatonDump.Automaton.WellFormed
import AutomatonDump.Roster.Basic
import AutomatonDump.Roster.View
import AutomatonDump.Roster.History
import AutomatonDump.Automaton.Blueprint
import AutomatonDump.Traversal.Frontier
import AutomatonDump.Dump.Report
import AutomatonDump.Proofs.Passage
import AutomatonDump.Proofs.Traversal.Coverage
import AutomatonDump.Proofs.Traversal.DiscoveryOrder
import AutomatonDump.Proofs.Automaton.Handles
import AutomatonDump.Proofs.Roster.HistoryPassages
import AutomatonDump.Proofs.Automaton.Growth
import AutomatonDump.Proofs.Text.Pieces
import AutomatonDump.Proofs.Traversal.Levels
import AutomatonDump.Proofs.Dump.Route
import AutomatonDump.Proofs.Text.Legible
import AutomatonDump.Proofs.Dump.Tag
import AutomatonDump.Proofs.Text.Arrangement
import AutomatonDump.Proofs.Dump.Outcome
import AutomatonDump.Proofs.Traversal.Renaming
import AutomatonDump.Proofs.Dump.Within
import AutomatonDump.Proofs.Dump.AddedEdge
import AutomatonDump.Proofs.Roster.Observation
import AutomatonDump.Proofs.Dump.ConstructionOrder
import AutomatonDump.Proofs.Dump.Faithful
import AutomatonDump.Proofs.Dump.Refusal
import AutomatonDump.Proofs.Dump.Course
import AutomatonDump.Proofs.Dump.VisitingOrder
import AutomatonDump.Proofs.Dump.Statistics
import AutomatonDump.Proofs.Label.Resolution
import AutomatonDump.Proofs.Dump.LineBreaks
import AutomatonDump.Proofs.Dump.Elsewhere
import AutomatonDump.Proofs.Dump.Renumbered
import AutomatonDump.Proofs.Label.Verdict
import AutomatonDump.Proofs.Label.Registration
import AutomatonDump.Proofs.Label.LexerText
import AutomatonDump.Proofs.Automaton.Blueprint
import AutomatonDump.Proofs.Shape.References
import AutomatonDump.Proofs.Shape.Bracketed
