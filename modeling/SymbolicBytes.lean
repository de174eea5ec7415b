import SymbolicBytes.Address
import SymbolicBytes.AddressSpace
import SymbolicBytes.AlignTable
import SymbolicBytes.Fault
import SymbolicBytes.FixedInt
import SymbolicBytes.Ieee.Arithmetic
import SymbolicBytes.Ieee.Decimal
import SymbolicBytes.Ieee.Format
import SymbolicBytes.InstructionSet
import SymbolicBytes.Machine
import SymbolicBytes.Machine.Concretize
import SymbolicBytes.Machine.Store
import SymbolicBytes.Memory
import SymbolicBytes.Memory.Session
import SymbolicBytes.Operator
import SymbolicBytes.Partition
import SymbolicBytes.Proofs.Acceptance
import SymbolicBytes.Proofs.AddressComparisons
import SymbolicBytes.Proofs.AddressRange
import SymbolicBytes.Proofs.Alignments
import SymbolicBytes.Proofs.Bitcasts
import SymbolicBytes.Proofs.ByteClasses
import SymbolicBytes.Proofs.ByteCodec
import SymbolicBytes.Proofs.ByteImage
import SymbolicBytes.Proofs.ByteMemory
import SymbolicBytes.Proofs.BytePositions
import SymbolicBytes.Proofs.CastTargets
import SymbolicBytes.Proofs.Choices
import SymbolicBytes.Proofs.Classes
import SymbolicBytes.Proofs.Comparisons
import SymbolicBytes.Proofs.ConcreteValues
import SymbolicBytes.Proofs.Congruence
import SymbolicBytes.Proofs.Conversions
import SymbolicBytes.Proofs.DeferredLoads
import SymbolicBytes.Proofs.Depths
import SymbolicBytes.Proofs.Equality
import SymbolicBytes.Proofs.ExactArithmetic
import SymbolicBytes.Proofs.FieldAddressing
import SymbolicBytes.Proofs.FirstSeeds
import SymbolicBytes.Proofs.InstructionTyping
import SymbolicBytes.Proofs.IntactStore
import SymbolicBytes.Proofs.IntegerCasts
import SymbolicBytes.Proofs.Integers
import SymbolicBytes.Proofs.Inversion
import SymbolicBytes.Proofs.IssuedIds
import SymbolicBytes.Proofs.LaneWise
import SymbolicBytes.Proofs.Levels
import SymbolicBytes.Proofs.Lists
import SymbolicBytes.Proofs.Literals
import SymbolicBytes.Proofs.Loading
import SymbolicBytes.Proofs.MemberOffsets
import SymbolicBytes.Proofs.Mirror
import SymbolicBytes.Proofs.Monotonicity
import SymbolicBytes.Proofs.Outcomes
import SymbolicBytes.Proofs.PassingOn
import SymbolicBytes.Proofs.PathLens
import SymbolicBytes.Proofs.Paths
import SymbolicBytes.Proofs.PointerCasts
import SymbolicBytes.Proofs.PointerSizedArithmetic
import SymbolicBytes.Proofs.PoisonOrder
import SymbolicBytes.Proofs.Rebuilding
import SymbolicBytes.Proofs.RegisterArithmetic
import SymbolicBytes.Proofs.Registers
import SymbolicBytes.Proofs.Reloading
import SymbolicBytes.Proofs.Renumbering
import SymbolicBytes.Proofs.Resolution
import SymbolicBytes.Proofs.RoundTrip
import SymbolicBytes.Proofs.ScalarInvariants
import SymbolicBytes.Proofs.SessionIds
import SymbolicBytes.Proofs.Shapes
import SymbolicBytes.Proofs.Sharing
import SymbolicBytes.Proofs.Sizes
import SymbolicBytes.Proofs.SymParts
import SymbolicBytes.Proofs.Tagging
import SymbolicBytes.Proofs.Trees
import SymbolicBytes.Proofs.Typing
import SymbolicBytes.Proofs.Unresolved
import SymbolicBytes.Proofs.ValuelessTypes
import SymbolicBytes.Proofs.Values
import SymbolicBytes.Proofs.ZeroBytes
import SymbolicBytes.Proofs.ZeroValues
import SymbolicBytes.Scalar
import SymbolicBytes.StoreIds
import SymbolicBytes.SymValue
import SymbolicBytes.SymValue.Equality
import SymbolicBytes.SymValue.Shape
import SymbolicBytes.Target
import SymbolicBytes.Ty
import SymbolicBytes.Value
import SymbolicBytes.Value.Path
import SymbolicBytes.Word
