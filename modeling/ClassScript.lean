import ClassScript.Syntax.SExpr
import ClassScript.Main
import ClassScript.Proofs.Machine.Moment
import ClassScript.Proofs.Syntax.Plain
import ClassScript.Proofs.Machine.Frame
import ClassScript.Proofs.Machine.Jumps
import ClassScript.Proofs.Binding.Visit
import ClassScript.Proofs.Binding.Sound
import ClassScript.Proofs.Binding.Jump
import ClassScript.Proofs.Parsing.Identities
import ClassScript.Proofs.Parsing.Declarations
import ClassScript.Proofs.Machine.Mirror
import ClassScript.Proofs.Machine.Healthy
import ClassScript.Proofs.Machine.Safe
import ClassScript.Proofs.Machine.Soundness
import ClassScript.Proofs.Session.Input
import ClassScript.Proofs.Session.History
import ClassScript.Proofs.Session.Routing
import ClassScript.Proofs.Binding.Unique
import ClassScript.Proofs.Session.Chain
import ClassScript.Proofs.Session.Faults
import ClassScript.Proofs.Slots.Relation
import ClassScript.Proofs.Slots.Pairs
import ClassScript.Proofs.Slots.Steps
import ClassScript.Proofs.Slots.Places
import ClassScript.Proofs.Slots.Frames
import ClassScript.Proofs.Slots.Simulation
import ClassScript.Proofs.Session.Scoping
import ClassScript.Proofs.Source.Lexeme
import ClassScript.Proofs.Source.Lines
import ClassScript.Proofs.Source.Cursor
import ClassScript.Proofs.Parsing.Grammar
import ClassScript.Proofs.Parsing.Sound
import ClassScript.Proofs.Parsing.Complete
import ClassScript.Proofs.Parsing.Recognition
import ClassScript.Proofs.Parsing.Derivations
import ClassScript.Proofs.Source.Joined
import ClassScript.Proofs.Parsing.Renamed
import ClassScript.Proofs.Binding.Renamed
import ClassScript.Proofs.Machine.Natural
import ClassScript.Proofs.Session.Checks
import ClassScript.Proofs.Session.Unseen
import ClassScript.Proofs.Machine.Output
import ClassScript.Proofs.Session.Composition
import ClassScript.Proofs.Session.Ways
import ClassScript.Proofs.Session.Restored
import ClassScript.Proofs.Session.Anywhere
import ClassScript.Proofs.Session.Shadow
import ClassScript.Proofs.Session.Traceless
import ClassScript.Proofs.Machine.Trace
import ClassScript.Proofs.Machine.Rooted
import ClassScript.Proofs.Machine.Held
import ClassScript.Proofs.Machine.Grounded
import ClassScript.Proofs.Session.States
import ClassScript.Proofs.Session.ScopeTree
import ClassScript.Proofs.Session.Tables
import ClassScript.Proofs.Syntax.Sites
import ClassScript.Proofs.Binding.Misuse
import ClassScript.Proofs.Machine.Truncated
import ClassScript.Proofs.Session.Truncation
import ClassScript.Proofs.Source.Positions
import ClassScript.Proofs.Parsing.Errors
import ClassScript.Proofs.Machine.Blame
import ClassScript.Proofs.Binding.Lines
import ClassScript.Proofs.Session.Reports
import ClassScript.Proofs.Syntax.Respelled
import ClassScript.Proofs.Source.Respelled
import ClassScript.Proofs.Parsing.Respelled
import ClassScript.Proofs.Binding.Opened
import ClassScript.Proofs.Binding.Respelled
import ClassScript.Proofs.Machine.Looks
import ClassScript.Proofs.Machine.Respelled
import ClassScript.Proofs.Machine.Twins
import ClassScript.Proofs.Session.Respelled
import ClassScript.Proofs.Syntax.Symbols
import ClassScript.Proofs.Parsing.Written
import ClassScript.Proofs.Parsing.Moved
import ClassScript.Proofs.Parsing.Interactive
import ClassScript.Proofs.Syntax.Core
import ClassScript.Proofs.Binding.Core
import ClassScript.Proofs.Slots.Meaning
import ClassScript.Proofs.Slots.Blocks
import ClassScript.Proofs.Slots.Core
import ClassScript.Proofs.Slots.Limits
import ClassScript.Proofs.Parsing.Located
import ClassScript.Proofs.Parsing.Loops
import ClassScript.Proofs.Session.Tokens
import ClassScript.Proofs.Session.Loops
import ClassScript.Proofs.Binding.Levels
import ClassScript.Proofs.Machine.Heeds
import ClassScript.Proofs.Machine.Receivers
import ClassScript.Proofs.Machine.Traced
import ClassScript.Proofs.Machine.Standing
import ClassScript.Proofs.Machine.Carried
import ClassScript.Proofs.Session.Receivers
import ClassScript.Proofs.Source.Layout
import ClassScript.Proofs.Parsing.Relaxed
import ClassScript.Proofs.Parsing.Prediction
import ClassScript.Proofs.Parsing.Predicted
import ClassScript.Proofs.Parsing.FirstError
import ClassScript.Proofs.Machine.Ancestry
import ClassScript.Proofs.Machine.Values
import ClassScript.Proofs.Machine.Genuine
import ClassScript.Proofs.Machine.Events
import ClassScript.Proofs.Session.Events
import ClassScript.Proofs.Session.Properties
import ClassScript.Proofs.Machine.Construction
import ClassScript.Proofs.Session.Construction
import ClassScript.Proofs.Machine.Lookup
import ClassScript.Proofs.Parsing.Runs
import ClassScript.Proofs.Parsing.Settled
import ClassScript.Proofs.Parsing.Progress
import ClassScript.Proofs.Parsing.Fresh
import ClassScript.Proofs.Session.Readings
import ClassScript.Proofs.Session.Updates
import ClassScript.Proofs.Number.Bits
import ClassScript.Proofs.Number.Shortest
import ClassScript.Proofs.Number.Numerals
import ClassScript.Proofs.Session.Numbers
