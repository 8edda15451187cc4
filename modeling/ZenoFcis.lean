import ZenoFcis.Authenticated.Update
import ZenoFcis.Codec.Envelope
import ZenoFcis.Collection.Bounds
import ZenoFcis.Collection.Update
import ZenoFcis.Compose.Identity
import ZenoFcis.Contract.Domain
import ZenoFcis.Contract.DomainManifest
import ZenoFcis.Contract.Expansion
import ZenoFcis.Contract.Hierarchy
import ZenoFcis.Contract.Joint
import ZenoFcis.Contract.KeyPatterns
import ZenoFcis.Contract.Monolithic
import ZenoFcis.Contract.OrderReads
import ZenoFcis.Contract.Rational
import ZenoFcis.Contract.Refinement
import ZenoFcis.Contract.RefinementRuns
import ZenoFcis.Contract.RefinementSpace
import ZenoFcis.Contract.Risk
import ZenoFcis.Contract.RiskExact
import ZenoFcis.Contract.RiskRuns
import ZenoFcis.Contract.Terms
import ZenoFcis.Contract.TwoRun
import ZenoFcis.Effects.AtMostOnce
import ZenoFcis.Effects.Budget
import ZenoFcis.Effects.Delivery
import ZenoFcis.Effects.Recovery
import ZenoFcis.Effects.Replay
import ZenoFcis.Effects.Restoration
import ZenoFcis.Finite.Completion
import ZenoFcis.Finite.Decision
import ZenoFcis.Finite.Meaning
import ZenoFcis.Finite.Scaled
import ZenoFcis.Finite.System
import ZenoFcis.Lib.Accrual
import ZenoFcis.Lib.Axes
import ZenoFcis.Lib.Bitset
import ZenoFcis.Lib.Cheapest
import ZenoFcis.Lib.Cursor
import ZenoFcis.Lib.Ends
import ZenoFcis.Lib.Least
import ZenoFcis.Lib.Ledger
import ZenoFcis.Lib.Metered
import ZenoFcis.Lib.OrdMap
import ZenoFcis.Lib.Runs
import ZenoFcis.Lib.StableOrder
import ZenoFcis.Lib.Unsigned
import ZenoFcis.Number.Decimal
import ZenoFcis.Number.Roots
import ZenoFcis.Number.Signed256
import ZenoFcis.Oracle.BondAgreement
import ZenoFcis.Oracle.BondCheck
import ZenoFcis.Oracle.BondEquivalence
import ZenoFcis.Oracle.BondHistory
import ZenoFcis.Oracle.BondLaws
import ZenoFcis.Oracle.BondMoves
import ZenoFcis.Oracle.BondSoundness
import ZenoFcis.Oracle.Bonds
import ZenoFcis.Oracle.Capacity
import ZenoFcis.Oracle.Meter
import ZenoFcis.Oracle.PriceAgreement
import ZenoFcis.Oracle.PriceHistory
import ZenoFcis.Oracle.QuorumExact
import ZenoFcis.Oracle.RewardHistory
import ZenoFcis.Oracle.Rewards
import ZenoFcis.Oracle.Types
import ZenoFcis.Oracle.Wire
import ZenoFcis.Patch.Frame
import ZenoFcis.Patch.Order
import ZenoFcis.Patch.Wire
import ZenoFcis.Plan.Decode
import ZenoFcis.Plan.Wire
import ZenoFcis.Search.Exact
import ZenoFcis.Search.Indexed
import ZenoFcis.Shell.History
import ZenoFcis.Spec.Derivation
import ZenoFcis.Spec.Isolation
import ZenoFcis.Spec.MiniDeterminator
import ZenoFcis.Spec.SyntaxCertificate
import ZenoFcis.Tables.Collection
import ZenoFcis.Tables.RedemptionMath
import ZenoFcis.Tables.Redistribution
import ZenoFcis.Value.Limits
import ZenoFcis.Zusd.Quotients
import ZenoFcis.Zusd.Reinsertion
import ZenoFcis.Zusd.StabilityLiveness
import ZenoFcis.Zusd.Staking
import ZenoFcis.Zusd.StateEncoding
import ZenoFcis.Zusd.Transport
import ZenoFcis.Zusd.Wide
