import HydraNode.Lib.OrdMap
import HydraNode.Primitives
import HydraNode.Qtum.Condensing
import HydraNode.Lib.Flow
import HydraNode.Qtum.CondensingSpec
import HydraNode.Qtum.CondensingValue
import HydraNode.Qtum.UTXO
import HydraNode.Qtum.CondensingUTXO
import HydraNode.Lib.Loop
import HydraNode.Lydra.Spending
import HydraNode.Lydra.Miner
import HydraNode.Lydra.Balance
import HydraNode.Contract.Results
import HydraNode.Contract.Block
import HydraNode.Contract.Reward
import HydraNode.Contract.Oracle
import HydraNode.Contract.Coinstake
import HydraNode.Contract.AAL
import HydraNode.Consensus.Merkle
import HydraNode.Stake.Delegation
import HydraNode.Lydra.Faults
import HydraNode.Coins.Undo
import HydraNode.Coins.Cache
import HydraNode.Coins.CacheStack
import HydraNode.Qtum.TxConverter
import HydraNode.Contract.Assembler
import HydraNode.Script.Num
import HydraNode.Script.Build
import HydraNode.Script.Param
import HydraNode.Script.SigHash
import HydraNode.Coins.Compressor
import HydraNode.Util.TokenStr
import HydraNode.Stake.Subsidy
import HydraNode.Stake.MPoS
import HydraNode.Lib.Limbs
import HydraNode.Arith.Uint256
import HydraNode.Arith.Compact
import HydraNode.Chain.BlockIndex
import HydraNode.Stake.Kernel
import HydraNode.Lib.Series
import HydraNode.Consensus.Pow
import HydraNode.Script.Signature
import HydraNode.Consensus.SequenceLocks
import HydraNode.Net.RollingBloom
import HydraNode.Lib.Radix
import HydraNode.Util.BaseEncodings
import HydraNode.Util.FixedPoint
import HydraNode.Util.MoneyStr
import HydraNode.Util.Bech32
import HydraNode.Util.Base58
import HydraNode.Crypto.Sha256
import HydraNode.Util.KeyIO
import HydraNode.Lib.Codec
import HydraNode.Serialize.Transaction
import HydraNode.Consensus.VersionBits
import HydraNode.Util.SlotBuffer
import HydraNode.Util.Prevector
import HydraNode.Util.ScriptBase
