import StakeChain.Chain.Index
import StakeChain.Validation.Engine
import StakeChain.Readable.Checker
import StakeChain.Report.Ledger
import StakeChain.Report.Script
import StakeChain.Proofs.CoinSet
import StakeChain.Proofs.Outcome
import StakeChain.Proofs.Spending
import StakeChain.Proofs.Engine
import StakeChain.Proofs.Sequential
import StakeChain.Proofs.Reorganization
import StakeChain.Proofs.Issue
import StakeChain.Proofs.Stateful
import StakeChain.Proofs.Numerals
import StakeChain.Proofs.Reading
import StakeChain.Proofs.TxWire
import StakeChain.Proofs.Wire
import StakeChain.Proofs.Frame
import StakeChain.Proofs.Tightening
import StakeChain.Proofs.Operations
import StakeChain.Proofs.SigChecks
import StakeChain.Proofs.SigBound
import StakeChain.Proofs.Ancestry
import StakeChain.Proofs.LockTimes
import StakeChain.Proofs.ScriptCuts
import StakeChain.Proofs.LegacyDigest
import StakeChain.Proofs.Delimited
import StakeChain.Proofs.SignedData
import StakeChain.Proofs.MerkleTree
import StakeChain.Proofs.WitnessCommitment
import StakeChain.Proofs.CarriedOut
import StakeChain.Proofs.Execution
import StakeChain.Proofs.ColdStaking
import StakeChain.Proofs.Delegation
import StakeChain.Proofs.MedianTime
import StakeChain.Proofs.LockMedian
import StakeChain.Proofs.Windows
import StakeChain.Proofs.KnownStates
import StakeChain.Proofs.Activation
import StakeChain.Proofs.HeightPush
import StakeChain.Proofs.ToldHeights
import StakeChain.Proofs.NewPlaces
import StakeChain.Proofs.Forks
import StakeChain.Proofs.Limits
import StakeChain.Proofs.Recheck
import StakeChain.Proofs.Sizes
import StakeChain.Proofs.Faults
import StakeChain.Proofs.SentSize
import StakeChain.Proofs.CoinFaults
import StakeChain.Proofs.ScriptFaults
import StakeChain.Proofs.Untouched
import StakeChain.Proofs.Nesting
import StakeChain.Proofs.Multisig
import StakeChain.Proofs.KeyHashSpend
import StakeChain.Proofs.WideArithmetic
import StakeChain.Proofs.CompactForm
import StakeChain.Proofs.CompactOrder
import StakeChain.Proofs.Retargeting
import StakeChain.Proofs.BlockWork
import StakeChain.Proofs.KernelTarget
import StakeChain.Proofs.Spendable
import StakeChain.Proofs.KindTargets
import StakeChain.Proofs.WitnessPrograms
import StakeChain.Proofs.Noted
import StakeChain.Proofs.SignedCode
import StakeChain.Proofs.StrictForm
import StakeChain.Proofs.KeptLocks
import StakeChain.Proofs.Base128
import StakeChain.Proofs.Records
import StakeChain.Proofs.ScriptNumbers
import StakeChain.Proofs.Supply
import StakeChain.Proofs.Tiling
import StakeChain.Proofs.KeptOperations
import StakeChain.Proofs.HexText
import StakeChain.Proofs.SameDigits
import StakeChain.Proofs.TextForm
import StakeChain.Proofs.Templates
import StakeChain.Proofs.Offsets
import StakeChain.Proofs.SharedDigests
import StakeChain.Proofs.Overwriting
