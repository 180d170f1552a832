import IrohBeekem.Cooldown
import IrohBeekem.Library.Keyed
import IrohBeekem.Library.Saturate
import IrohBeekem.Library.Wp
import IrohBeekem.Capability.Bundle
import IrohBeekem.Capability.Derivation
import IrohBeekem.Capability.Influence
import IrohBeekem.Capability.Offers
import IrohBeekem.Keys.Redelivery
import IrohBeekem.Keys.Company
import IrohBeekem.State.Admins
import IrohBeekem.State.Agreement
import IrohBeekem.State.Budget
import IrohBeekem.State.Resume
import IrohBeekem.State.Coverage
import IrohBeekem.State.Decisions
import IrohBeekem.State.Gaps
import IrohBeekem.State.Generations
import IrohBeekem.State.Hashing
import IrohBeekem.State.Ingest
import IrohBeekem.State.Members
import IrohBeekem.State.Minting
import IrohBeekem.State.Namespace
import IrohBeekem.State.Quorum
import IrohBeekem.State.Readmission
import IrohBeekem.State.Replay
import IrohBeekem.State.Removals
import IrohBeekem.State.Waiters
import IrohBeekem.Docs.Enumeration
import IrohBeekem.Facade.Authors
import IrohBeekem.Facade.Persist
import IrohBeekem.Facade.Redeem
import IrohBeekem.Facade.Roster
import IrohBeekem.Facade.AssetKeys
import IrohBeekem.Facade.Propose
import IrohBeekem.Facade.RoundTrip
import IrohBeekem.Facade.Signing
import IrohBeekem.Docs.Hex
import IrohBeekem.Docs.Decoders
import IrohBeekem.Docs.Versions
import IrohBeekem.Library.Segments
import IrohBeekem.Facade.Assets
import IrohBeekem.State.Attachments
import IrohBeekem.Facade.Sweep
import IrohBeekem.Facade.Circulation
