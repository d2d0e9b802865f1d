import EntityStore.Arena
import EntityStore.Arena.Notices
import EntityStore.Arena.Series
import EntityStore.Audience
import EntityStore.Catalog
import EntityStore.Fault
import EntityStore.Generation
import EntityStore.Guarded
import EntityStore.Handle.References
import EntityStore.Handle.Request
import EntityStore.Handle.Table
import EntityStore.Ident
import EntityStore.Issuer
import EntityStore.Journal
import EntityStore.Lock
import EntityStore.Lock.Bank
import EntityStore.Lock.Contention
import EntityStore.Lock.Group
import EntityStore.Lock.Routine
import EntityStore.Lock.Session
import EntityStore.Lock.Word
import EntityStore.Measure
import EntityStore.NamedTable
import EntityStore.Packed
import EntityStore.Proofs.Arena.Account
import EntityStore.Proofs.Arena.Housed
import EntityStore.Proofs.Arena.Stocked
import EntityStore.Proofs.Arena.Sweep
import EntityStore.Proofs.Audience
import EntityStore.Proofs.Catalog.Entries
import EntityStore.Proofs.Catalog.Traffic
import EntityStore.Proofs.Handle.Lives
import EntityStore.Proofs.Handle.Owners
import EntityStore.Proofs.Handle.Releases
import EntityStore.Proofs.Issuer.Fresh
import EntityStore.Proofs.Issuer.Ledger
import EntityStore.Proofs.Issuer.Order
import EntityStore.Proofs.Issuer.Reuse
import EntityStore.Proofs.Issuer.Timely
import EntityStore.Proofs.Lock.Alone
import EntityStore.Proofs.Lock.Change
import EntityStore.Proofs.Lock.Climb
import EntityStore.Proofs.Lock.Confine
import EntityStore.Proofs.Lock.Crowd
import EntityStore.Proofs.Lock.Deadlock
import EntityStore.Proofs.Lock.Depths
import EntityStore.Proofs.Lock.Founding
import EntityStore.Proofs.Lock.Guard
import EntityStore.Proofs.Lock.Holdings
import EntityStore.Proofs.Lock.Interleave
import EntityStore.Proofs.Lock.Lending
import EntityStore.Proofs.Lock.Listing
import EntityStore.Proofs.Lock.Nest
import EntityStore.Proofs.Lock.Outcome
import EntityStore.Proofs.Lock.Ownership
import EntityStore.Proofs.Lock.Reports
import EntityStore.Proofs.Lock.Sessions
import EntityStore.Proofs.Lock.Solo
import EntityStore.Proofs.Lock.Stint
import EntityStore.Proofs.Lock.Wakeup
import EntityStore.Proofs.Lock.Window
import EntityStore.Proofs.Packed.Cells
import EntityStore.Proofs.Packed.Contents
import EntityStore.Proofs.Packed.Rearrange
import EntityStore.Proofs.Packed.Sorting
import EntityStore.Proofs.Packed.Sound
import EntityStore.Proofs.Packed.Strict
import EntityStore.Proofs.Table.Callbacks
import EntityStore.Proofs.Table.Departures
import EntityStore.Proofs.Table.Effect
import EntityStore.Proofs.Table.Mirror
import EntityStore.Proofs.Table.Naming
import EntityStore.Proofs.Table.Neat
import EntityStore.Proofs.Table.Survey
import EntityStore.Proofs.Table.Tenure
import EntityStore.Proofs.Workforce.Words
import EntityStore.Proofs.World.Backlog
import EntityStore.Proofs.World.Census
import EntityStore.Proofs.World.Charted
import EntityStore.Proofs.World.Commit
import EntityStore.Proofs.World.Coupling
import EntityStore.Proofs.World.Creations
import EntityStore.Proofs.World.Deferral
import EntityStore.Proofs.World.Destroy
import EntityStore.Proofs.World.Idle
import EntityStore.Proofs.World.Issued
import EntityStore.Proofs.World.Locked
import EntityStore.Proofs.World.Lodging
import EntityStore.Proofs.World.Making
import EntityStore.Proofs.World.Nesting
import EntityStore.Proofs.World.Newcomers
import EntityStore.Proofs.World.Passes
import EntityStore.Proofs.World.Pauses
import EntityStore.Proofs.World.Pending
import EntityStore.Proofs.World.Queue
import EntityStore.Proofs.World.Raze
import EntityStore.Proofs.World.Reading
import EntityStore.Proofs.World.Rounds
import EntityStore.Proofs.World.Scripts
import EntityStore.Proofs.World.Settling
import EntityStore.Proofs.World.Signals
import EntityStore.Proofs.World.Stages
import EntityStore.Proofs.World.Steady
import EntityStore.Proofs.World.Stores
import EntityStore.Proofs.World.Storing
import EntityStore.Proofs.World.Systems
import EntityStore.Proofs.World.Ticks
import EntityStore.Proofs.World.Tidy
import EntityStore.Proofs.World.Twins
import EntityStore.Proofs.World.Undoing
import EntityStore.Proofs.World.Upkeep
import EntityStore.Record
import EntityStore.Sample
import EntityStore.Signal
import EntityStore.Table
import EntityStore.Table.Access
import EntityStore.Table.Request
import EntityStore.Text.CharClass
import EntityStore.Text.Duration
import EntityStore.Text.Quoted
import EntityStore.Tracing
import EntityStore.Workforce
import EntityStore.World.Entities
import EntityStore.World.Perform
import EntityStore.World.Run
import EntityStore.World.Script
import EntityStore.World.State
import EntityStore.World.Systems
import EntityStore.World.Tables
