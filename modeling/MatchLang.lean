import MatchLang.Builtins
import MatchLang.Code
import MatchLang.Code.Builder
import MatchLang.Code.Listing
import MatchLang.Command
import MatchLang.CompileError
import MatchLang.Conversation
import MatchLang.Directory
import MatchLang.Fault
import MatchLang.Grammar.Expression
import MatchLang.Grammar.Pattern
import MatchLang.Grammar.Program
import MatchLang.Grammar.Reader
import MatchLang.Links
import MatchLang.Lowering.Emitter
import MatchLang.Lowering.Expression
import MatchLang.Lowering.Pattern
import MatchLang.Lowering.Program
import MatchLang.Machine.Call
import MatchLang.Machine.Console
import MatchLang.Machine.Load
import MatchLang.Machine.NativeCall
import MatchLang.Machine.Request
import MatchLang.Machine.State
import MatchLang.Machine.Step
import MatchLang.Machine.Store
import MatchLang.Machine.Test
import MatchLang.Namespace
import MatchLang.Namespace.Import
import MatchLang.Native
import MatchLang.Number.Parts
import MatchLang.Number.Reading
import MatchLang.Number.Remainder
import MatchLang.Number.Shortest
import MatchLang.ParseError
import MatchLang.Prelude
import MatchLang.Program
import MatchLang.Session
import MatchLang.Table
import MatchLang.Text.Blank
import MatchLang.Text.Extending
import MatchLang.Text.Quoted
import MatchLang.Text.Unprintable
import MatchLang.Token
import MatchLang.Token.Scan
import MatchLang.Value
import MatchLang.Value.Text
import MatchLang.Main
import MatchLang.Proofs.Code.Balance
import MatchLang.Proofs.Links.Bounds
import MatchLang.Proofs.Lists.Building
import MatchLang.Proofs.Lists.Coherence
import MatchLang.Proofs.Lists.Fitting
import MatchLang.Proofs.Lowering.Balance
import MatchLang.Proofs.Lowering.Code
import MatchLang.Proofs.Lowering.Compiled
import MatchLang.Proofs.Lowering.Emission
import MatchLang.Proofs.Lowering.Emitted
import MatchLang.Proofs.Lowering.Slots
import MatchLang.Proofs.Machine.Action
import MatchLang.Proofs.Machine.Application
import MatchLang.Proofs.Machine.Frames
import MatchLang.Proofs.Machine.Invariant
import MatchLang.Proofs.Machine.Onward
import MatchLang.Proofs.Machine.Activations
import MatchLang.Proofs.Machine.Outcome
import MatchLang.Proofs.Machine.Passage
import MatchLang.Proofs.Machine.Passes
import MatchLang.Proofs.Machine.Preservation
import MatchLang.Proofs.Machine.Restarting
import MatchLang.Proofs.Machine.Returning
import MatchLang.Proofs.Machine.Walk
import MatchLang.Proofs.Namespace.Growth
import MatchLang.Proofs.Namespace.Publish
import MatchLang.Proofs.Namespace.Seed
import MatchLang.Proofs.Namespace.Sound
import MatchLang.Proofs.Pattern.Agreement
import MatchLang.Proofs.Pattern.Binding
import MatchLang.Proofs.Pattern.Keeper
import MatchLang.Proofs.Pattern.Pieces
import MatchLang.Proofs.Session.Restarts
import MatchLang.Proofs.Session.Safety
import MatchLang.Proofs.Session.Stores
import MatchLang.Proofs.Store.Sound
import MatchLang.Proofs.Store.View
import MatchLang.Proofs.Value.Sound
import MatchLang.Proofs.Grammar.Numbering
import MatchLang.Proofs.Grammar.OneLine
import MatchLang.Proofs.Grammar.Joining
import MatchLang.Proofs.Grammar.Spelling
import MatchLang.Proofs.Grammar.Running
import MatchLang.Proofs.Grammar.Faithful
import MatchLang.Proofs.Grammar.Bounds
import MatchLang.Proofs.Grammar.Complete
import MatchLang.Proofs.Grammar.Exactness
import MatchLang.Proofs.Links.Resolution
import MatchLang.Proofs.Session.Visibility
import MatchLang.Proofs.Value.Every
import MatchLang.Proofs.Machine.Inversion
import MatchLang.Proofs.Machine.Roots
import MatchLang.Proofs.Machine.Depth
import MatchLang.Proofs.Machine.Locality
import MatchLang.Proofs.Machine.Sharing
import MatchLang.Proofs.Machine.Alongside
import MatchLang.Proofs.Session.Moments
import MatchLang.Proofs.Session.Frozen
import MatchLang.Proofs.Session.Cutoff
import MatchLang.Proofs.Session.HomeModule
import MatchLang.Proofs.Lowering.Imports
import MatchLang.Proofs.Machine.Loading
import MatchLang.Proofs.Machine.Nesting
import MatchLang.Proofs.Machine.Fetching
import MatchLang.Proofs.Namespace.Handover
import MatchLang.Proofs.Session.Once
import MatchLang.Proofs.Session.Identity
import MatchLang.Proofs.Pattern.Publishing
import MatchLang.Proofs.Value.Like
import MatchLang.Proofs.Namespace.Like
import MatchLang.Proofs.Store.Like
import MatchLang.Proofs.Machine.Like
import MatchLang.Proofs.Session.Assembled
import MatchLang.Proofs.Session.Grouping
import MatchLang.Proofs.Store.Hidden
import MatchLang.Proofs.Machine.Beside
import MatchLang.Proofs.Lists.Items
import MatchLang.Proofs.Lists.Calm
import MatchLang.Proofs.Lists.Abreast
import MatchLang.Proofs.Lists.Order
import MatchLang.Proofs.Namespace.Making
import MatchLang.Proofs.Namespace.Overlay
import MatchLang.Proofs.Namespace.Selection
import MatchLang.Proofs.Lowering.WellFormed
import MatchLang.Proofs.Lowering.Acceptance
import MatchLang.Proofs.Code.Slots
import MatchLang.Proofs.Value.Recode
import MatchLang.Proofs.Namespace.Recode
import MatchLang.Proofs.Machine.Slots
import MatchLang.Proofs.Renaming.Groups
import MatchLang.Proofs.Renaming.Trees
import MatchLang.Proofs.Renaming.Linking
import MatchLang.Proofs.Renaming.Lowering
import MatchLang.Proofs.Renaming.Private
import MatchLang.Proofs.Exports.Writing
import MatchLang.Proofs.Exports.Awaiting
import MatchLang.Proofs.Exports.Storing
import MatchLang.Proofs.Exports.Outline
import MatchLang.Proofs.Exports.Order
import MatchLang.Proofs.Prelude.Lists
import MatchLang.Proofs.Token.Layout
import MatchLang.Proofs.Pattern.Congruence
import MatchLang.Proofs.Session.Lines
import MatchLang.Proofs.Links.Entries
import MatchLang.Proofs.Code.Units
import MatchLang.Proofs.Lowering.Forward
import MatchLang.Proofs.Machine.Pointer
import MatchLang.Proofs.Session.Units
import MatchLang.Proofs.Session.Forward
import MatchLang.Proofs.Code.Lexical
import MatchLang.Proofs.Lowering.Region
import MatchLang.Proofs.Lowering.Lexical
import MatchLang.Proofs.Machine.Lexical
import MatchLang.Proofs.Session.Lexical
import MatchLang.Proofs.Machine.Complaints
import MatchLang.Proofs.Machine.Waiting
import MatchLang.Proofs.Machine.Backtrace
import MatchLang.Proofs.Session.Reports
import MatchLang.Proofs.Store.Beyond
import MatchLang.Proofs.Direct.Evaluation
import MatchLang.Proofs.Direct.Program
import MatchLang.Proofs.Simulation.Twin
import MatchLang.Proofs.Simulation.Changes
import MatchLang.Proofs.Simulation.Follows
import MatchLang.Proofs.Simulation.Binding
import MatchLang.Proofs.Simulation.Calls
import MatchLang.Proofs.Simulation.Pure
import MatchLang.Proofs.Simulation.Expressions
import MatchLang.Proofs.Simulation.Programs
import MatchLang.Proofs.Simulation.Modules
import MatchLang.Proofs.Simulation.Correctness
