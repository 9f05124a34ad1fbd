import Midfall.ByteReader
import Midfall.KzgGroupingCorrect
import Midfall.KzgQueryAgreement
import Midfall.KzgQueryGrouping
import Midfall.ListLoops
import Midfall.MemoryPlan
import Midfall.OpeningGroups
import Midfall.PlonkConstraintSystem
import Midfall.PlonkStatement
import Midfall.ProofReadOrder
import Midfall.ProtocolConsistency
import Midfall.ProtocolLowering
import Midfall.QuotientExprShapes
import Midfall.QuotientModarith7
import Midfall.QuotientVmDecoder
import Midfall.QuotientVmInterpreter
import Midfall.QuotientVmOpcodes
import Midfall.QuotientVmValidation
import Midfall.ScannerAutomaton
import Midfall.ScannerChip
import Midfall.ScannerChipSound
import Midfall.RegexCompilation
import Midfall.TranscriptLog
import Midfall.VerifierData
import Midfall.VerifierMemory
import Midfall.VerifierMemorySafety
import Midfall.TranscriptParser
import Midfall.PlonkOpenings
import Midfall.PlonkProofFormat
import Midfall.CircuitPrograms
import Midfall.BigUintRuns
import Midfall.MapGadget
import Midfall.PoseidonVarlen
import Midfall.PlonkExpressions
import Midfall.KzgMultiPrepare
import Midfall.OrderedMaps
import Midfall.VerifierMsm
import Midfall.VerifierUtils
import Midfall.VerifierAccumulator
import Midfall.RadixTwo
import Midfall.BestFft
import Midfall.DomainConversions
import Midfall.BoothDigits
import Midfall.BucketSums
import Midfall.CurveMsm
import Midfall.BatchAddition
import Midfall.MsmBest
import Midfall.PoseidonRounds
import Midfall.PoseidonRoundSkips
import Midfall.PoseidonChip
import Midfall.PoseidonSponge
import Midfall.Sha256Varlen
import Midfall.Worklists
import Midfall.AutomatonLanguages
import Midfall.RawAutomata
import Midfall.RawAutomatonGraphs
import Midfall.RawAutomatonPowerset
import Midfall.RawAutomatonComplement
import Midfall.RawAutomatonRepeat
import Midfall.RawAutomatonConstructors
import Midfall.RawAutomatonProduct
import Midfall.RawAutomatonSums
import Midfall.RawAutomatonConcat
import Midfall.PartitionRefinement
import Midfall.RawAutomatonRefinement
import Midfall.RawAutomatonMinimise
import Midfall.RawAutomatonRuns
import Midfall.RawAutomatonInvariant
import Midfall.Regexes
import Midfall.RegexComplement
import Midfall.FieldChip
import Midfall.FieldChipBounds
import Midfall.FieldChipGates
import Midfall.EdwardsChip
import Midfall.EdwardsChipCorrect
import Midfall.EdwardsChipGroupLaw
import Midfall.KzgRegrouping
import Midfall.RawAutomatonLetters
import Midfall.RegexMeanings
import Midfall.RegexMarkers
import Midfall.AutomatonSerialization
import Midfall.JsonStrings
import Midfall.QuotientProgramLists
import Midfall.QuotientRunCompaction
import Midfall.QuotientSelectorFold
import Midfall.QuotientNativeGates
import Midfall.QuotientShapeValues
import Midfall.QuotientSelection
import Midfall.QuotientEmission
import Midfall.YulLines
import Midfall.YulEvaluator
import Midfall.LimbChains
import Midfall.ProofTranscripts
import Midfall.InnerProductArgument
import Midfall.StraightLinePrograms
import Midfall.ExpressionGraphs
import Midfall.LookupGraphs
import Midfall.MergedCycles
import Midfall.DomainRotations
import Midfall.PermutationAssembly
import Midfall.RunningFolds
import Midfall.PermutationProducts
import Midfall.WrappingTallies
import Midfall.LogupProver
import Midfall.LimbedPolynomials
import Midfall.DegreeBounds
import Midfall.LimbSizes
import Midfall.QuotientLimbs
import Midfall.LinearizationQueries
import Midfall.InstanceEvaluations
import Midfall.Rationals
import Midfall.NativeRanges
import Midfall.NativeComparison
import Midfall.VectorTrimming
import Midfall.BitComparison
import Midfall.TableFilling
import Midfall.FetchBytes
