import ScriptMachine.Assembler
import ScriptMachine.Code.Builtin
import ScriptMachine.Code.Opcode
import ScriptMachine.Code.Table
import ScriptMachine.Codec.Error
import ScriptMachine.Codec.Names
import ScriptMachine.Codec.Reader
import ScriptMachine.Codec.Varint
import ScriptMachine.Command.Folder
import ScriptMachine.Command.Options
import ScriptMachine.Command.Run
import ScriptMachine.Machine.Basic
import ScriptMachine.Machine.Modules
import ScriptMachine.Machine.SaveState
import ScriptMachine.Machine.Schedule
import ScriptMachine.Machine.Scopes
import ScriptMachine.Machine.Scripts
import ScriptMachine.Machine.Step
import ScriptMachine.Machine.Turn
import ScriptMachine.Main
import ScriptMachine.Module.Basic
import ScriptMachine.Module.Bytecode
import ScriptMachine.Module.Decoded
import ScriptMachine.Module.Listing
import ScriptMachine.Module.Loader
import ScriptMachine.Name
import ScriptMachine.Numeric.Binary
import ScriptMachine.Numeric.Decimal
import ScriptMachine.OrdMap
import ScriptMachine.Proofs.Assembler.Decoding
import ScriptMachine.Proofs.Assembler.Layout
import ScriptMachine.Proofs.Assembler.Loading
import ScriptMachine.Proofs.Code.Starts
import ScriptMachine.Proofs.Codec.Forms
import ScriptMachine.Proofs.Codec.Reads
import ScriptMachine.Proofs.Codec.Sequencing
import ScriptMachine.Proofs.Codec.Truncation
import ScriptMachine.Proofs.Codec.Utf8
import ScriptMachine.Proofs.Codec.Varint
import ScriptMachine.Proofs.Machine.Accounts
import ScriptMachine.Proofs.Machine.Acts
import ScriptMachine.Proofs.Machine.Arithmetic
import ScriptMachine.Proofs.Machine.ArrayText
import ScriptMachine.Proofs.Machine.Beats
import ScriptMachine.Proofs.Machine.Calls
import ScriptMachine.Proofs.Machine.Census
import ScriptMachine.Proofs.Machine.Chronicle
import ScriptMachine.Proofs.Machine.Coherence
import ScriptMachine.Proofs.Machine.Collection
import ScriptMachine.Proofs.Machine.Conduct
import ScriptMachine.Proofs.Machine.Confinement
import ScriptMachine.Proofs.Machine.Consistency
import ScriptMachine.Proofs.Machine.Courses
import ScriptMachine.Proofs.Machine.Delays
import ScriptMachine.Proofs.Machine.Entries
import ScriptMachine.Proofs.Machine.Evolution
import ScriptMachine.Proofs.Machine.Frames
import ScriptMachine.Proofs.Machine.Freeing
import ScriptMachine.Proofs.Machine.Generator
import ScriptMachine.Proofs.Machine.HostPrograms
import ScriptMachine.Proofs.Machine.InnerTurns
import ScriptMachine.Proofs.Machine.Instances
import ScriptMachine.Proofs.Machine.Isolation
import ScriptMachine.Proofs.Machine.Lasting
import ScriptMachine.Proofs.Machine.Limits
import ScriptMachine.Proofs.Machine.Lives
import ScriptMachine.Proofs.Machine.Managed
import ScriptMachine.Proofs.Machine.Nesting
import ScriptMachine.Proofs.Machine.Newcomers
import ScriptMachine.Proofs.Machine.Operations
import ScriptMachine.Proofs.Machine.Order
import ScriptMachine.Proofs.Machine.Pausing
import ScriptMachine.Proofs.Machine.Registry
import ScriptMachine.Proofs.Machine.Reloading
import ScriptMachine.Proofs.Machine.Results
import ScriptMachine.Proofs.Machine.RoundTrip
import ScriptMachine.Proofs.Machine.Rounds
import ScriptMachine.Proofs.Machine.Seats
import ScriptMachine.Proofs.Machine.Seeding
import ScriptMachine.Proofs.Machine.Settled
import ScriptMachine.Proofs.Machine.Standing
import ScriptMachine.Proofs.Machine.Stirring
import ScriptMachine.Proofs.Machine.Takes
import ScriptMachine.Proofs.Machine.Truncation
import ScriptMachine.Proofs.Machine.TurnCount
import ScriptMachine.Proofs.Machine.Turns
import ScriptMachine.Proofs.Machine.Unaided
import ScriptMachine.Proofs.Machine.Unlimited
import ScriptMachine.Proofs.Machine.View
import ScriptMachine.Proofs.Machine.ViewRequests
import ScriptMachine.Proofs.Machine.ViewRuns
import ScriptMachine.Proofs.Machine.ViewSteps
import ScriptMachine.Proofs.Machine.ViewTicks
import ScriptMachine.Proofs.Machine.ViewTurns
import ScriptMachine.Proofs.Machine.Visits
import ScriptMachine.Proofs.Machine.Waits
import ScriptMachine.Proofs.Module.Acceptance
import ScriptMachine.Proofs.Module.Origin
import ScriptMachine.Proofs.Module.Redirects
import ScriptMachine.Proofs.Module.Translation
import ScriptMachine.Proofs.Module.UnitRoundTrip
import ScriptMachine.Proofs.OrdMap
import ScriptMachine.Proofs.Scope.Evolution
import ScriptMachine.Proofs.Scope.Growth
import ScriptMachine.Proofs.Scope.Holders
import ScriptMachine.Proofs.Scope.Legibility
import ScriptMachine.Proofs.Scope.Lookup
import ScriptMachine.Proofs.Scope.Naturality
import ScriptMachine.Proofs.Scope.Order
import ScriptMachine.Proofs.Scope.Recast
import ScriptMachine.Proofs.Scope.Release
import ScriptMachine.Proofs.Scope.RoundTrip
import ScriptMachine.Proofs.Scope.StringArrays
import ScriptMachine.Proofs.Scope.Truncation
import ScriptMachine.Proofs.StringTable.Changes
import ScriptMachine.Proofs.StringTable.Histories
import ScriptMachine.Proofs.StringTable.Interning
import ScriptMachine.Proofs.StringTable.Keeping
import ScriptMachine.Proofs.StringTable.Locks
import ScriptMachine.Proofs.StringTable.Plain
import ScriptMachine.Proofs.StringTable.RoundTrip
import ScriptMachine.Proofs.StringTable.Wellformed
import ScriptMachine.Proofs.Thread.Callers
import ScriptMachine.Proofs.Thread.Framing
import ScriptMachine.Proofs.Thread.Locals
import ScriptMachine.Proofs.Thread.Moves
import ScriptMachine.Proofs.Thread.RoundTrip
import ScriptMachine.Proofs.Thread.Running
import ScriptMachine.Proofs.Thread.Underflow
import ScriptMachine.Proofs.Thread.Unseen
import ScriptMachine.Scope.Codec
import ScriptMachine.Scope.Tree
import ScriptMachine.Scope.Vars
import ScriptMachine.Session
import ScriptMachine.Settings
import ScriptMachine.Sparse
import ScriptMachine.StringTable.Basic
import ScriptMachine.StringTable.Codec
import ScriptMachine.StringTable.Collect
import ScriptMachine.Text.Digits
import ScriptMachine.Text.Json
import ScriptMachine.Text.Quoted
import ScriptMachine.Text.Utf8
import ScriptMachine.Thread.Basic
import ScriptMachine.Thread.Codec
import ScriptMachine.Word
