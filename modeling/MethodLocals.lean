import MethodLocals.ClassGraph.Library
import MethodLocals.Main
import MethodLocals.Proofs.PathSafety
import MethodLocals.Proofs.Settling
import MethodLocals.Proofs.Widening
import MethodLocals.Proofs.Naming
import MethodLocals.Proofs.Scopes
import MethodLocals.Proofs.History
import MethodLocals.Proofs.ReservedTails
import MethodLocals.Proofs.LoadAgreement
import MethodLocals.Proofs.RoundTrip
import MethodLocals.Proofs.ArenaTable
import MethodLocals.Proofs.InStep
import MethodLocals.Proofs.Definedness
import MethodLocals.Proofs.CommonClass
import MethodLocals.Proofs.MergeOrder
import MethodLocals.Proofs.FreshSlots
import MethodLocals.Proofs.SharedNames
import MethodLocals.Proofs.Unreached
import MethodLocals.Proofs.MoreClasses
import MethodLocals.Proofs.ParameterLayout
import MethodLocals.Proofs.RenamedTable
import MethodLocals.Proofs.SearchRounds
import MethodLocals.Proofs.FailedPasses
import MethodLocals.Proofs.ValueLattice
import MethodLocals.Proofs.MergeInPlace
import MethodLocals.Proofs.Reservations
import MethodLocals.Proofs.Locality
import MethodLocals.Proofs.Provenance
import MethodLocals.Proofs.EntryBindings
import MethodLocals.Proofs.Truncation
import MethodLocals.Proofs.PrintedLayout
import MethodLocals.Proofs.ArrayTypes
import MethodLocals.Proofs.Bookkeeping
