import Mermai.Lib.Codec
import Mermai.Lib.Sql
import Mermai.Lib.Quorum
import Mermai.Lib.Resource
import Mermai.Lib.Run
import Mermai.Lib.Machine
import Mermai.Lib.Sweep
import Mermai.Lib.Merkle
import Mermai.Lib.Delimited
import Mermai.Lib.Utf8
import Mermai.Lib.Json
import Mermai.Lib.JsonText
import Mermai.Core.Prims
import Mermai.Core.Format
import Mermai.Core.FormatLaws
import Mermai.Core.Verify
import Mermai.Core.Sign
import Mermai.Core.MerkleRoot
import Mermai.Core.Multisig
import Mermai.Core.MultisigCodec
import Mermai.Core.VotePayload
import Mermai.Consensus.Stake
import Mermai.Consensus.Proposal
import Mermai.Consensus.Quorum
import Mermai.Consensus.Finality
import Mermai.Consensus.LiveStake
import Mermai.Chain.Blockchain
import Mermai.Chain.Invariant
import Mermai.Chain.Slashing
import Mermai.Chain.Redelivery
import Mermai.Chain.Replay
import Mermai.Chain.Adoption
import Mermai.Db.Utxo
import Mermai.Db.Store
import Mermai.Consensus.Order
import Mermai.Db.Ledger
import Mermai.Db.ReadBack
import Mermai.Db.Accounts
import Mermai.Db.Atomic
import Mermai.Db.History
import Mermai.Db.Recovery
import Mermai.Node.Message
import Mermai.Node.NoReplay
import Mermai.Node.Waiting
import Mermai.Node.Wire
import Mermai.Node.Views
import Mermai.Node.Sync
import Mermai.Node.Race
import Mermai.Node.Restart
import Mermai.Node.Producer
import Mermai.Light.Tree
import Mermai.Light.Inclusion
import Mermai.Light.Client
import Mermai.Light.Headers
import Mermai.Vm.Word
import Mermai.Vm.Machine
import Mermai.Vm.Gas
import Mermai.Vm.Arith
import Mermai.Vm.Operand
import Mermai.Merlite.Token
import Mermai.Merlite.Layout
import Mermai.Merlite.Print
import Mermai.Merlite.Assembler
import Mermai.Merlite.Compiler
import Mermai.Merlite.Program
import Mermai.Merlite.Correct
import Mermai.Merlite.Contract
import Mermai.Merlite.Require
import Mermai.Merlite.Scanner
import Mermai.Merlite.Snippets
import Mermai.Merlite.Total
import Mermai.Lib.StdMap
import Mermai.Vm.Token
import Mermai.Vm.TokenHistory
import Mermai.Db.ContractStorage
import Mermai.Core.Mempool
import Mermai.Vm.Effect
import Mermai.Vm.Debugger
import Mermai.Merlite.Disassembler
import Mermai.Vm.Bounds
import Mermai.Rpc.PubSub
import Mermai.Consensus.Governance
import Mermai.Consensus.Ballots
import Mermai.Consensus.BallotOrder
import Mermai.Consensus.Rewards
import Mermai.Consensus.Proportion
import Mermai.Node.Stream
import Mermai.Rpc.Text
import Mermai.Rpc.Status
import Mermai.Rpc.Listing
import Mermai.Rpc.Submit
import Mermai.Rpc.Numeral
import Mermai.Rpc.Answer
import Mermai.Rpc.Server
import Mermai.Rpc.Deploy
import Mermai.Rpc.Correlation
import Mermai.Lib.Network
import Mermai.Node.Payout
import Mermai.Node.Peers
import Mermai.Node.Process
import Mermai.Node.Stakes
import Mermai.Node.Network
import Mermai.Node.Agreement
import Mermai.Node.Accountability
import Mermai.Node.Finalized
import Mermai.Node.Coins
import Mermai.Node.Rounds
import Mermai.Node.Leader
import Mermai.Node.Following
