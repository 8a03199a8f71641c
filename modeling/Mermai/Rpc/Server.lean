import Mermai.Consensus.Quorum
import Mermai.Db.Accounts
import Mermai.Db.ContractStorage
import Mermai.Db.History
import Mermai.Rpc.Answer
import Mermai.Rpc.Submit
import Mermai.Vm.Machine

/-!
# Rpc.Server — `handle_request`

The functions of `mermai_rpc_server` that `handle_request` calls, and the call itself.  A null `shared_ptr`
is `none`.  Two methods run a contract, which may never end, so the call has fuel for the virtual machine and
gives no response without enough of it; a contract that traps takes the server with it and there is no
response at all.
-/

namespace Mermai.Rpc

open Merlite (ascii)

variable {F : Type}

/-! ## The server -/

/-- What the server runs on: cryptography, gas constants, floats and the two clocks. -/
structure Host (F : Type) where
  crypto : Crypto
  gas : Vm.GasSchedule
  floats : WeightText F
  now : ℕ
  clock : ℕ → UInt64

/-- The database with the column `weight` of `validators` and the table `contracts`. -/
structure RpcDb (F : Type) extends Db where
  weights : Sql.Table Bytes F := ∅
  contracts : Sql.Table Bytes Bytes := ∅

/-- `mermai_rpc_server`: the chain, the number of peers, the database, the active validators and the quorum
collector. -/
structure Server (F : Type) where
  blockchain : Option (List Block) := none
  p2pNode : Option UInt32 := none
  db : Option (RpcDb F) := none
  consensus : Option (List ValidatorStake) := none
  quorum : Option QuorumCollector := none

/-! ## The database -/

/-- `get_validator`, and the weight of the row; zeros when there is none. -/
def getValidator (fl : FloatOps F) (db : RpcDb F) (address : Bytes) : ValidatorStake × F :=
  match db.validators.lookup (cText address) with
  | none => (⟨address, 0, 0, 0, []⟩, fl.lit 0 0)
  | some row => (row.toStake address, (db.weights.lookup (cText address)).getD (fl.lit 0 0))

/-- `save_validator` of a stake that `add_validator` made: its weight is its amount. -/
def saveRegistered (fl : FloatOps F) (db : RpcDb F) (v : ValidatorStake) : RpcDb F :=
  { db with
    toDb := saveValidator db.toDb v
    weights := db.weights.insert (cText v.address) (fl.ofUInt64 v.amount) }

/-- `get_contract_code`. -/
def getContractCode (db : RpcDb F) (contractAddress : Bytes) : Bytes :=
  (db.contracts.lookup (cText contractAddress)).getD []

/-- `save_contract_code`: without a value the constraint `NOT NULL` refuses the row. -/
def saveContractCode (db : RpcDb F) (contractAddress code : Bytes) : Option (RpcDb F) :=
  if contractAddress = [] ∨ code = [] then none
  else (bindBlob code).map fun blob =>
    { db with contracts := db.contracts.insert (cText contractAddress) blob }

/-! ## Blocks -/

/-- A number in an answer. -/
def Leaf.ofNat (n : ℕ) : Leaf := .number (.ofNat n)

/-- `get_block_count`. -/
def Server.getBlockCount (S : Server F) : Answer :=
  let height : UInt32 :=
    match S.blockchain with
    | some chain => getHeight chain
    | none => (S.db.map fun db => getLatestBlockHeight db.toDb).getD 0
  .result (.leaf (.ofNat height.toNat))

/-- The answer of `get_block` and `get_block_by_hash`. -/
def blockAnswer : Option Block → Answer
  | none => .error (-1) (ascii "Block not found")
  | some b => .result (.record
      [⟨"height", .ofNat b.height.toNat, rfl⟩, ⟨"validator", .text b.validatorAddress, rfl⟩])

/-- The block of `get_block`: that of the chain, else that of the database. -/
def Server.findBlock (S : Server F) (height : UInt32) : Option Block :=
  (S.blockchain.bind fun chain => Mermai.getBlock chain height).orElse fun _ =>
    S.db.bind fun db => getBlockByHeight db.toDb height

/-- `get_block`. -/
def Server.getBlock (S : Server F) (height : UInt32) : Answer := blockAnswer (S.findBlock height)

/-- `get_block_by_hash`. -/
def Server.getBlockByHash (S : Server F) (hash : Bytes) : Answer :=
  match S.db with
  | none => .error (-1) (ascii "Database unavailable")
  | some db => blockAnswer (Mermai.getBlockByHash db.toDb hash)

/-- The loop of `get_finalized_block` over the heights below `count`, from above. -/
def lastFinalized (C : Crypto) (chain : List Block) (quorum : Option QuorumCollector) : ℕ → Option Block
  | 0 => none
  | h + 1 =>
    match Mermai.getBlock chain (UInt32.ofNat h) with
    | none => lastFinalized C chain quorum h
    | some b =>
      if quorum.any fun q => q.isBlockFinalized (b.hashHex C) then some b
      else lastFinalized C chain quorum h

/-- `get_finalized_block`: the height goes through `int`. -/
def Server.getFinalizedBlock (S : Server F) (C : Crypto) : Answer :=
  match S.blockchain with
  | none => .error (-1) (ascii "Blockchain unavailable")
  | some chain =>
    match lastFinalized C chain S.quorum ((getHeight chain).toInt32.toInt + 1).toNat with
    | some b => .result (.record
        [⟨"height", .ofNat b.height.toNat, rfl⟩, ⟨"hash", .text (b.hashHex C), rfl⟩])
    | none => .result (.record [⟨"height", .ofNat 0, rfl⟩, ⟨"hash", .text (ascii "genesis"), rfl⟩])

/-! ## Accounts and transactions -/

/-- `get_balance`. -/
def Server.getBalance (S : Server F) (address : Bytes) : Answer :=
  match S.db with
  | none => .error (-1) (ascii "Database unavailable")
  | some db => .result (.leaf (.ofNat (Mermai.getBalance db.toDb address).toNat))

/-- `get_account_nonce`. -/
def Server.getAccountNonce (S : Server F) (address : Bytes) : Answer :=
  match S.db with
  | none => .error (-1) (ascii "Database unavailable")
  | some db => .result (.leaf (.ofNat (getAccount db.toDb address).nonce.toNat))

/-- `get_transaction`. -/
def Server.getTransaction (S : Server F) (txId : Bytes) : Answer :=
  match S.db with
  | none => .error (-1) (ascii "Database unavailable")
  | some db =>
    let tx := Mermai.getTransaction db.toDb txId
    if tx.id = [] then .error (-1) (ascii "Transaction not found")
    else .result (.record [⟨"id", .text tx.id, rfl⟩, ⟨"fee", .ofNat tx.fee.toNat, rfl⟩])

/-- `send_transaction`, and the server behind it. -/
def Server.sendTransaction (S : Server F) (H : Host F) (request : Bytes) : Bytes × Server F :=
  let sent := Mermai.sendTransaction H.crypto H.now (S.db.map RpcDb.toDb) request
  (sent.answer, { S with db := S.db.map fun db => { db with toDb := sent.db.getD db.toDb } })

/-- `suggest_fee`. -/
def suggestFee : Answer :=
  .result (.record
    [⟨"min_fee", .ofNat 1000, rfl⟩, ⟨"median_fee", .ofNat 5000, rfl⟩, ⟨"fast_fee", .ofNat 10000, rfl⟩])

/-- `get_peer_count`. -/
def Server.getPeerCount (S : Server F) : Answer := .result (.leaf (.ofNat (S.p2pNode.getD 0).toNat))

/-- `get_chain_id`. -/
def getChainId : Answer := .result (.leaf (.ofNat 1337))

/-- One metric of `get_metrics`. -/
def metric (name help : String) (value : Bytes) : Bytes :=
  ascii "# HELP " ++ ascii name ++ ascii " " ++ ascii help ++ ascii "\n# TYPE " ++ ascii name ++
    ascii " gauge\n" ++ ascii name ++ ascii " " ++ value ++ ascii "\n"

/-- `get_metrics`: plain text. -/
def Server.getMetrics (S : Server F) : Bytes :=
  let height := (S.blockchain.map getHeight).getD 0
  let validators : UInt32 := (S.consensus.map fun vs => UInt32.ofNat vs.length).getD 0
  metric "mermai_block_height" "Current chain tip height" (decimal height.toNat) ++ ascii "\n" ++
    metric "mermai_validators_active" "Number of active validators" (decimal validators.toNat) ++
    ascii "\n" ++
    metric "mermai_peers_connected" "Number of connected P2P peers" (decimal (S.p2pNode.getD 0).toNat) ++
    ascii "\n" ++ metric "mermai_mempool_size" "Number of unconfirmed transactions" (ascii "0")

/-! ## Validators and votes -/

/-- `register_validator`, and the server behind it. -/
def Server.registerValidator (S : Server F) (H : Host F) (request : Bytes) : Answer × Server F :=
  match S.consensus with
  | none => (.error (-32000) (ascii "Consensus unavailable"), S)
  | some vs =>
    let address := requestString request (ascii "address")
    let stake := requestNumber request (ascii "stake")
    let publicKey := hexToBytes (requestString request (ascii "public_key"))
    let registered :=
      if address = [] ∨ stake < 1000000 then none
      else Mermai.registerValidator H.crypto H.now vs address stake publicKey
    match registered with
    | none => (.error (-32602) (ascii "Invalid validator registration"), S)
    | some vs =>
      let db := S.db.map fun db =>
        (vs.filter fun v => v.address = address).foldl (saveRegistered H.floats.toFloatOps) db
      (.result (.leaf (.bool true)), { S with db, consensus := some vs })

/-- `get_validator_info`. -/
def Server.getValidatorInfo (S : Server F) (H : Host F) (address : Bytes) : Answer :=
  match S.db with
  | none => .error (-1) (ascii "Database unavailable")
  | some db =>
    let v := getValidator H.floats.toFloatOps db address
    if v.1.amount = 0 then .error (-1) (ascii "Validator not found")
    else .result (.record
      [⟨"address", .text v.1.address, rfl⟩, ⟨"amount", .ofNat v.1.amount.toNat, rfl⟩,
        ⟨"lockTime", .ofNat v.1.lockTime.toNat, rfl⟩, ⟨"lastProposal", .ofNat v.1.lastProposal.toNat, rfl⟩,
        ⟨"weight", .number (H.floats.printed v.2), rfl⟩])

/-- The record of `get_all_validators` for a validator. -/
def validatorRecord (v : ValidatorStake) : Record :=
  [⟨"address", .text v.address, rfl⟩, ⟨"amount", .ofNat v.amount.toNat, rfl⟩]

/-- `get_all_validators`. -/
def Server.getAllValidators (S : Server F) : Answer :=
  match S.db with
  | none => .error (-1) (ascii "Database unavailable")
  | some db => .result (.list ((Mermai.getAllValidators db.toDb).map validatorRecord))

/-- `get_validator_weight`. -/
def Server.getValidatorWeight (S : Server F) (H : Host F) (address : Bytes) : Answer :=
  match S.db with
  | none => .error (-1) (ascii "Database unavailable")
  | some db =>
    let v := getValidator H.floats.toFloatOps db address
    if v.1.amount = 0 then .error (-1) (ascii "Validator not found")
    else .result (.leaf (.number (H.floats.numeral v.2)))

/-- The vote of `submit_vote`. -/
def submittedVote (request : Bytes) : BlockVote where
  validatorAddress := requestString request (ascii "validator_address")
  blockHash := requestString request (ascii "block_hash")
  blockHeight := (requestNumber request (ascii "block_height")).toUInt32
  timestamp := requestNumber request (ascii "timestamp")
  validatorPublicKey := hexToBytes (requestString request (ascii "validator_public_key"))
  signature := hexToBytes (requestString request (ascii "signature"))

/-- `submit_vote`, and the server behind it. -/
def Server.submitVote (S : Server F) (H : Host F) (request : Bytes) : Answer × Server F :=
  match S.quorum, S.consensus with
  | some q, some vs =>
    let added := addVote H.crypto vs q (submittedVote request)
    if added.1 then (.result (.leaf (.bool true)), { S with quorum := some added.2 })
    else
      (.error (-32602) (ascii "Invalid vote signature or unregistered validator"),
        { S with quorum := some added.2 })
  | _, _ => (.error (-32000) (ascii "Quorum service unavailable"), S)

/-- `get_quorum_status`. -/
def Server.getQuorumStatus (S : Server F) (blockHash : Bytes) : Answer :=
  match S.quorum, S.consensus with
  | some q, some vs =>
    .result (.record
      [⟨"finalized", .bool (q.isBlockFinalized blockHash), rfl⟩,
        ⟨"voteStake", .ofNat (q.getVoteStake blockHash).toNat, rfl⟩,
        ⟨"totalStake", .ofNat (getTotalActiveStake vs).toNat, rfl⟩])
  | _, _ => .error (-32000) (ascii "Quorum service unavailable")

/-! ## Contracts -/

/-- The code in a request, in either field. -/
def codeHex (request : Bytes) : Bytes :=
  let text := requestString request (ascii "bytecode")
  if text = [] then requestString request (ascii "code") else text

/-- `deploy_contract`, and the server behind it. -/
def Server.deployContract (S : Server F) (C : Crypto) (request : Bytes) : Answer × Server F :=
  let code := hexToBytes (codeHex request)
  if code = [] then (.error (-32602) (ascii "Invalid contract bytecode"), S)
  else
    let address := ascii "0x" ++ hashToHex ((C.sha256 code).take 20)
    let deployed : Answer := .result (.leaf (.text address))
    match S.db with
    | none => (deployed, S)
    | some db =>
      match saveContractCode db address code with
      | none => (.error (-32000) (ascii "Failed to save contract"), S)
      | some db => (deployed, { S with db := some db })

/-- `get_contract_code`. -/
def Server.getContractCode (S : Server F) (contractAddress : Bytes) : Answer :=
  match S.db with
  | none => .error (-1) (ascii "Database unavailable")
  | some db =>
    let code := Rpc.getContractCode db contractAddress
    if code = [] then .error (-1) (ascii "Contract not found")
    else .result (.leaf (.text (ascii "0x" ++ bytesToHex code)))

/-- A run of the virtual machine with the gas of the server: the verdict and the context; `none` when it does
not end within the fuel or traps. -/
def runContract (H : Host F) (code caller : Bytes) (fuel : ℕ) : Option (Bool × Vm.Context) :=
  match Vm.execute H.gas H.clock code { gasLimit := 1000000, callerAddress := caller } fuel with
  | some (.returned ok, c) => some (ok, c)
  | _ => none

/-- The code that `call_contract` runs: that of the address, else that of the request. -/
def Server.calledCode (S : Server F) (request : Bytes) : Bytes :=
  let address := requestString request (ascii "address")
  let stored := if address = [] then [] else (S.db.map fun db => Rpc.getContractCode db address).getD []
  if stored = [] then hexToBytes (codeHex request) else stored

/-- The returned word in hexadecimal digits: the top of the stack. -/
def returnHex (c : Vm.Context) : Bytes :=
  match c.stack with
  | [] => List.replicate 64 48
  | w :: _ => hashToHex w.bytes

/-- `call_contract`. -/
def Server.callContract (S : Server F) (H : Host F) (request : Bytes) (fuel : ℕ) : Option Answer :=
  let code := S.calledCode request
  if code = [] then some (.error (-1) (ascii "Contract code not found"))
  else
    (runContract H code (requestString request (ascii "from")) fuel).map fun r =>
      if r.1 then .result (.leaf (.text (ascii "0x" ++ returnHex r.2)))
      else .error (-32000) (ascii "Execution failed")

/-- `estimate_gas`. -/
def estimateGas (H : Host F) (request : Bytes) (fuel : ℕ) : Option Answer :=
  let code := hexToBytes (codeHex request)
  if code = [] then some (.result (.leaf (.text (ascii "0x5208"))))
  else
    (runContract H code [] fuel).map fun r =>
      .result (.leaf (.text (ascii "0x" ++ hexText r.2.gasUsed.toNat)))

/-! ## The dispatcher -/

/-- The branches of `handle_request`. -/
inductive Method
  | blockNumber | getBlockByNumber | getBlockByHash | getFinalizedBlock
  | getBalance | getTransactionCount | getTransaction | sendTransaction
  | suggestFee | getMetrics
  | registerValidator | getValidatorInfo | getAllValidators | getValidatorWeight
  | submitVote | getQuorumStatus
  | deployContract | getContractCode | callContract | estimateGas
  | peerCount | chainId
deriving DecidableEq

/-- The names of each branch, in the order of the code. -/
def methodNames : List (List String × Method) :=
  [(["mrm_blockNumber", "eth_blockNumber"], .blockNumber),
    (["mrm_getBlockByNumber", "eth_getBlockByNumber"], .getBlockByNumber),
    (["mrm_getBlockByHash", "eth_getBlockByHash"], .getBlockByHash),
    (["mrm_getFinalizedBlock"], .getFinalizedBlock),
    (["mrm_getBalance", "eth_getBalance"], .getBalance),
    (["mrm_getTransactionCount", "eth_getTransactionCount"], .getTransactionCount),
    (["mrm_getTransaction", "mrm_getTransactionByHash", "eth_getTransactionByHash"], .getTransaction),
    (["mrm_sendRawTransaction", "eth_sendRawTransaction", "mrm_sendTransaction"], .sendTransaction),
    (["mrm_suggestFee", "eth_gasPrice"], .suggestFee),
    (["mrm_getMetrics"], .getMetrics),
    (["mrm_registerValidator"], .registerValidator),
    (["mrm_getValidatorInfo"], .getValidatorInfo),
    (["mrm_getAllValidators"], .getAllValidators),
    (["mrm_getValidatorWeight"], .getValidatorWeight),
    (["mrm_submitVote"], .submitVote),
    (["mrm_getQuorumStatus"], .getQuorumStatus),
    (["mrm_deployContract"], .deployContract),
    (["mrm_getContractCode", "eth_getCode"], .getContractCode),
    (["mrm_callContract", "eth_call"], .callContract),
    (["mrm_estimateGas", "eth_estimateGas"], .estimateGas),
    (["mrm_peerCount", "net_peerCount"], .peerCount),
    (["mrm_chainId", "eth_chainId"], .chainId)]

/-- The branch of a name. -/
def methodOf (name : Bytes) : Option Method :=
  (methodNames.find? fun m => m.1.any fun n => ascii n = name).map Prod.snd

/-- The lambda `get_param_str`. -/
def paramString (request key : Bytes) : Bytes :=
  let text := requestString request key
  if text = [] then requestString request (ascii "params") else text

/-- The height of `mrm_getBlockByNumber`. -/
def blockHeight (request : Bytes) : UInt32 :=
  let height := requestNumber request (ascii "height")
  (if height = 0 then requestNumber request (ascii "params") else height).toUInt32

/-- The id of `mrm_getTransaction`: the first of four fields that is not empty. -/
def transactionId (request : Bytes) : Bytes :=
  let texts := [ascii "txHash", ascii "tx_id", ascii "hash"].map (requestString request)
  (texts.find? fun text => text ≠ []).getD (requestString request (ascii "params"))

/-- The branch of a method: the text it returns, and the server behind it. -/
def Server.call (S : Server F) (H : Host F) (fuel : ℕ) (request : Bytes) :
    Method → Option (Bytes × Server F)
  | .blockNumber => some (S.getBlockCount.print, S)
  | .getBlockByNumber => some ((S.getBlock (blockHeight request)).print, S)
  | .getBlockByHash => some ((S.getBlockByHash (paramString request (ascii "hash"))).print, S)
  | .getFinalizedBlock => some ((S.getFinalizedBlock H.crypto).print, S)
  | .getBalance => some ((S.getBalance (paramString request (ascii "address"))).print, S)
  | .getTransactionCount => some ((S.getAccountNonce (paramString request (ascii "address"))).print, S)
  | .getTransaction => some ((S.getTransaction (transactionId request)).print, S)
  | .sendTransaction => some (S.sendTransaction H request)
  | .suggestFee => some (suggestFee.print, S)
  | .getMetrics => some (S.getMetrics, S)
  | .registerValidator => some ((S.registerValidator H request).map Answer.print id)
  | .getValidatorInfo => some ((S.getValidatorInfo H (paramString request (ascii "address"))).print, S)
  | .getAllValidators => some (S.getAllValidators.print, S)
  | .getValidatorWeight => some ((S.getValidatorWeight H (paramString request (ascii "address"))).print, S)
  | .submitVote => some ((S.submitVote H request).map Answer.print id)
  | .getQuorumStatus => some ((S.getQuorumStatus (paramString request (ascii "hash"))).print, S)
  | .deployContract => some ((S.deployContract H.crypto request).map Answer.print id)
  | .getContractCode => some ((S.getContractCode (paramString request (ascii "address"))).print, S)
  | .callContract => (S.callContract H request fuel).map fun a => (a.print, S)
  | .estimateGas => (estimateGas H request fuel).map fun a => (a.print, S)
  | .peerCount => some (S.getPeerCount.print, S)
  | .chainId => some (getChainId.print, S)

/-- `handle_request`: the response, and the server behind it. -/
def Server.handleRequest (S : Server F) (H : Host F) (fuel : ℕ) (request : Bytes) :
    Option (Bytes × Server F) :=
  let called :=
    match methodOf (requestString request (ascii "method")) with
    | some method => S.call H fuel request method
    | none => some (jsonError (-32601) (ascii "Method not found"), S)
  called.map fun r => (wrap (requestId request) r.1, r.2)

end Mermai.Rpc
