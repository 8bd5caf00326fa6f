import Nxchain.Validators

namespace Nxchain

structure BlsScheme where
  PublicKey : Type
  Signature : Type
  MultiPublicKey : Type
  MultiSignature : Type
  unmarshalPublicKey : Bytes → Except String PublicKey
  unmarshalSignature : Bytes → Except String Signature
  verify : PublicKey → Bytes → Signature → Except String Bool
  aggregateSignatures : List Signature → Except String MultiSignature
  marshalMultiSignature : MultiSignature → Except String Bytes
  unmarshalMultiSignature : Bytes → Except String MultiSignature
  aggregatePublicKeys : List PublicKey → Except String MultiPublicKey
  verifyMultiSignature : MultiPublicKey → Bytes → MultiSignature → Except String Bool

structure Crypto where
  keccak256 : Bytes → Hash
  recoverCompact : Bytes → Bytes → Except String Address
  bls : BlsScheme

inductive SignerError where
  | emptyCommittedSeals
  | emptyParentCommittedSeals
  | invalidCommittedSealLength
  | invalidCommittedSealType
  | repeatedCommittedSeal
  | nonValidatorCommittedSeal
  | notEnoughCommittedSeals
  | signerMismatch
  | validatorNotFound
  | invalidValidators
  | invalidValidator
  | invalidSignature
  | wrongExtraSize (expected actual : Nat)
  | incorrectNumberOfElements (found : Nat)
  | mismatchOfCommittedSeal
  | mismatchOfAggregatedCommittedSeal
  | decodeSeal (e : Rlp.Error)
  | validators (e : ValidatorsError)
  | rlp (e : Rlp.Error)
  | crypto (message : String)
  | aggregatePublicKeys (e : SignerError)
deriving DecidableEq

namespace Crypto

variable (crypto : Crypto)

def ecrecover (sig msg : Bytes) : Except SignerError Address :=
  match sig.getLast? with
  | none => .error (.crypto "invalid signature")
  | some v =>
    (crypto.recoverCompact ((if v = 1 then 28 else 27) :: sig.dropLast) msg).mapError .crypto

def verifyBLSSignatureFromBytes (rawPubkey rawSig message : Bytes) : Except SignerError Unit := do
  let pubkey ← (crypto.bls.unmarshalPublicKey rawPubkey).mapError .crypto
  let signature ← (crypto.bls.unmarshalSignature rawSig).mapError .crypto
  if ← (crypto.bls.verify pubkey message signature).mapError .crypto then
    return ()
  else
    throw (.crypto "invalid BLS Signature")

def legacyCommitCode : UInt8 := 2

def wrapCommitHash (data : Bytes) : Hash := crypto.keccak256 (data ++ [legacyCommitCode])

def commitMessage (hash : Bytes) : Bytes :=
  (crypto.keccak256 (crypto.wrapCommitHash hash).toBytes).toBytes

end Crypto

inductive Seals where
  | serialized (seals : List Bytes)
  | aggregated (bitmap : Option Nat) (signature : Bytes)
deriving DecidableEq

namespace Seals

def empty : ValidatorType → Seals
  | .ecdsa => serialized []
  | .bls => aggregated none []

def num : Seals → Except (Fault SignerError) Nat
  | serialized seals => .ok seals.length
  | aggregated (some bitmap) _ => .ok bitmap.size
  | aggregated none _ => .error (.panic .nilDereference)

def marshalRLPWith : Seals → Rlp.Value
  | serialized seals => .list (seals.map .bytes)
  | aggregated bitmap signature =>
    .list [.bytes ((bitmap.map Rlp.bigEndian).getD []), .bytes signature]

def unmarshalRLPFrom : ValidatorType → Rlp.Value → Except SignerError Seals
  | .ecdsa, v => do
    let vals ← v.getElems.mapError fun _ => .mismatchOfCommittedSeal
    let seals ← vals.mapM fun val => val.getBytes.mapError .rlp
    return serialized seals
  | .bls, v => do
    match ← v.getElems.mapError fun _ => .mismatchOfCommittedSeal with
    | [] => return aggregated none []
    | [_] => throw .mismatchOfAggregatedCommittedSeal
    | bitmap :: signature :: _ =>
      let rawBitMap ← bitmap.getBytes.mapError .rlp
      let signature ← signature.getBytes.mapError .rlp
      return aggregated (some (Rlp.ofBigEndian rawBitMap)) signature

end Seals

structure IstanbulExtra where
  validators : Validators
  proposerSeal : Bytes
  committedSeals : Seals
  parentCommittedSeals : Option Seals
deriving DecidableEq

namespace IstanbulExtra

def vanity : Nat := 32

def sealLength : Nat := 65

def marshalRLPWith (extra : IstanbulExtra) : Rlp.Value :=
  .list ([extra.validators.marshalRLPWith, .bytes extra.proposerSeal,
    extra.committedSeals.marshalRLPWith]
      ++ (extra.parentCommittedSeals.map Seals.marshalRLPWith).toList)

def unmarshalParent : Option ValidatorType → List Rlp.Value → Except SignerError (Option Seals)
  | none, _ => .ok none
  | some parentType, [] => .ok (some (Seals.empty parentType))
  | some parentType, parent :: _ => (Seals.unmarshalRLPFrom parentType parent).map some

def unmarshalRLPFrom (t : ValidatorType) (parentType : Option ValidatorType) (v : Rlp.Value) :
    Except SignerError IstanbulExtra := do
  match ← v.getElems.mapError .rlp with
  | vals :: proposer :: committed :: rest =>
    let validators ← (Validators.unmarshalRLPFrom t vals).mapError .validators
    let proposerSeal ← proposer.getBytes.mapError .decodeSeal
    let committedSeals ← Seals.unmarshalRLPFrom t committed
    let parentCommittedSeals ← unmarshalParent parentType rest
    return ⟨validators, proposerSeal, committedSeals, parentCommittedSeals⟩
  | elems => throw (.incorrectNumberOfElements elems.length)

def unmarshalParentCommittedSeals (t : ValidatorType) (v : Rlp.Value) : Except SignerError Seals := do
  match ← v.getElems.mapError .rlp with
  | _ :: _ :: _ :: parent :: _ => Seals.unmarshalRLPFrom t parent
  | _ => return Seals.empty t

end IstanbulExtra

def unmarshalRlp {α : Type} (codec : Rlp.Codec) (decode : Rlp.Value → Except SignerError α)
    (input : Bytes) : Except SignerError α :=
  match codec.parse input with
  | none => .error (.rlp .malformed)
  | some v => decode v

def verifyIBFTExtraSize (header : Header) : Except SignerError Unit :=
  if header.extraData.length < IstanbulExtra.vanity then
    .error (.wrongExtraSize IstanbulExtra.vanity header.extraData.length)
  else .ok ()

def putIbftExtra (codec : Rlp.Codec) (h : Header) (extra : IstanbulExtra) : Header :=
  let zeros := List.replicate (IstanbulExtra.vanity - h.extraData.length) 0
  { h with
    extraData := h.extraData.take IstanbulExtra.vanity ++ zeros ++ codec.marshal extra.marshalRLPWith }

def packFields (codec : Rlp.Codec) (packFn : List Rlp.Value → List Rlp.Value) (extraBody : Bytes) :
    Rlp.Value :=
  match codec.parse extraBody with
  | none => .list []
  | some v =>
    match v.getElems with
    | .error _ => .list []
    | .ok elems => if elems.length < 3 then .list [] else .list (packFn elems)

def packFieldsIntoExtra (codec : Rlp.Codec) (extraBytes : Bytes)
    (packFn : List Rlp.Value → List Rlp.Value) : Bytes :=
  extraBytes.take IstanbulExtra.vanity
    ++ codec.marshal (packFields codec packFn (extraBytes.drop IstanbulExtra.vanity))

def packProposerSealIntoExtra (codec : Rlp.Codec) (extraBytes proposerSeal : Bytes) : Bytes :=
  packFieldsIntoExtra codec extraBytes fun oldValues =>
    oldValues.take 1 ++ [.bytes proposerSeal] ++ (oldValues.drop 2).take 2

def packCommittedSealsIntoExtra (codec : Rlp.Codec) (extraBytes : Bytes) (committedSeal : Seals) :
    Bytes :=
  packFieldsIntoExtra codec extraBytes fun oldValues =>
    oldValues.take 2 ++ [committedSeal.marshalRLPWith] ++ (oldValues.drop 3).take 1

def headerFields (h : Header) : Rlp.Value :=
  .list
    [.bytes h.parentHash.toBytes, .bytes h.sha3Uncles.toBytes, .bytes h.miner,
      .bytes h.stateRoot.toBytes, .bytes h.txRoot.toBytes, .bytes h.receiptsRoot.toBytes,
      .bytes h.logsBloom.toBytes, .bytes (Rlp.bigEndian h.difficulty),
      .bytes (Rlp.bigEndian h.number), .bytes (Rlp.bigEndian h.gasLimit),
      .bytes (Rlp.bigEndian h.gasUsed), .bytes (Rlp.bigEndian h.timestamp), .bytes h.extraData]

def calculateHeaderHash (crypto : Crypto) (codec : Rlp.Codec) (h : Header) : Hash :=
  crypto.keccak256 (codec.marshal (headerFields h))

def liftError {α : Type} (x : Except SignerError α) : Except (Fault SignerError) α :=
  x.mapError .error

namespace ECDSAKeyManager

variable (crypto : Crypto)

def verifyCommittedSeal (vals : Validators) (address : Address) (signature message : Bytes) :
    Except SignerError Unit :=
  if vals.validatorType ≠ .ecdsa then .error .invalidValidators
  else
    match crypto.ecrecover signature message with
    | .error _ => .error .invalidSignature
    | .ok signer =>
      if address ≠ signer then .error .signerMismatch
      else if !vals.includes address then .error .nonValidatorCommittedSeal
      else .ok ()

def generateCommittedSeals (sealMap : List (Address × Bytes)) : Except SignerError Seals :=
  if sealMap.any (fun entry => entry.2.length ≠ IstanbulExtra.sealLength) then
    .error .invalidCommittedSealLength
  else .ok (.serialized (sealMap.map (·.2)))

def checkSeals (msg : Bytes) (validators : Validators) : List Address → List Bytes →
    Except SignerError Unit
  | _, [] => .ok ()
  | visited, signature :: rest => do
    let addr ← crypto.ecrecover signature msg
    if addr ∈ visited then
      throw .repeatedCommittedSeal
    if !validators.includes addr then
      throw .nonValidatorCommittedSeal
    checkSeals msg validators (addr :: visited) rest

def verifyCommittedSealsImpl (seals : List Bytes) (msg : Bytes) (validators : Validators) :
    Except SignerError Nat := do
  if seals.length = 0 then
    throw .emptyCommittedSeals
  checkSeals crypto msg validators [] seals
  return seals.length

end ECDSAKeyManager

namespace BLSKeyManager

variable (crypto : Crypto)

def verifyCommittedSeal (set : Validators) (addr : Address) (rawSignature hash : Bytes) :
    Except SignerError Unit :=
  if set.validatorType ≠ .bls then .error .invalidValidators
  else
    match (set.index addr).bind (set.validators[·]?) with
    | none => .error .validatorNotFound
    | some (.ecdsa _) => .error .invalidValidators
    | some (.bls _ blsPublicKey) =>
      crypto.verifyBLSSignatureFromBytes blsPublicKey rawSignature hash

def getBLSSignatures (validators : Validators) : List (Address × Bytes) → List crypto.bls.Signature →
    Nat → Except SignerError (List crypto.bls.Signature × Nat)
  | [], blsSignatures, bitMap => .ok (blsSignatures, bitMap)
  | (addr, signature) :: rest, blsSignatures, bitMap =>
    match validators.index addr with
    | none => .error .nonValidatorCommittedSeal
    | some index => do
      let bsig ← (crypto.bls.unmarshalSignature signature).mapError .crypto
      getBLSSignatures validators rest (blsSignatures ++ [bsig]) (bitMap ||| 2 ^ index)

def generateCommittedSeals (sealMap : List (Address × Bytes)) (set : Validators) :
    Except SignerError Seals := do
  if set.validatorType ≠ .bls then
    throw .invalidValidators
  let (blsSignatures, bitMap) ← getBLSSignatures crypto set sealMap [] 0
  let multiSignature ← (crypto.bls.aggregateSignatures blsSignatures).mapError .crypto
  let multiSignatureBytes ← (crypto.bls.marshalMultiSignature multiSignature).mapError .crypto
  return .aggregated (some bitMap) multiSignatureBytes

def signerKeys (bitMap : Nat) : Nat → List Validator → Except SignerError (List crypto.bls.PublicKey)
  | _, [] => .ok []
  | idx, validator :: rest =>
    if !bitMap.testBit idx then signerKeys bitMap (idx + 1) rest
    else
      match validator with
      | .ecdsa _ => .error .invalidValidator
      | .bls _ blsPublicKey => do
        let pubKey ← (crypto.bls.unmarshalPublicKey blsPublicKey).mapError .crypto
        let rest ← signerKeys bitMap (idx + 1) rest
        return pubKey :: rest

def createAggregatedBLSPubKeys (vals : Validators) (bitMap : Nat) :
    Except SignerError (crypto.bls.MultiPublicKey × Nat) := do
  let pubkeys ← signerKeys crypto bitMap 0 vals.validators
  let key ← (crypto.bls.aggregatePublicKeys pubkeys).mapError .crypto
  return (key, pubkeys.length)

def verifyBLSCommittedSealsImpl (bitmap : Option Nat) (signature msg : Bytes) (vals : Validators) :
    Except SignerError Nat :=
  match bitmap with
  | none => .error .emptyCommittedSeals
  | some bitmap => do
    if signature.length = 0 ∨ bitmap.size = 0 then
      throw .emptyCommittedSeals
    let (aggregatedPubKey, numKeys) ←
      (createAggregatedBLSPubKeys crypto vals bitmap).mapError .aggregatePublicKeys
    let multiSignature ← (crypto.bls.unmarshalMultiSignature signature).mapError .crypto
    if ← (crypto.bls.verifyMultiSignature aggregatedPubKey msg multiSignature).mapError .crypto then
      return numKeys
    else
      throw .invalidSignature

end BLSKeyManager

structure KeyManager where
  type : ValidatorType
  address : Address

namespace KeyManager

variable (crypto : Crypto) (keyManager : KeyManager)

def verifyCommittedSeal (vals : Validators) (signer : Address) (signature hash : Bytes) :
    Except SignerError Unit :=
  match keyManager.type with
  | .ecdsa => ECDSAKeyManager.verifyCommittedSeal crypto vals signer signature hash
  | .bls => BLSKeyManager.verifyCommittedSeal crypto vals signer signature hash

def generateCommittedSeals (sealMap : List (Address × Bytes)) (vals : Validators) :
    Except SignerError Seals :=
  match keyManager.type with
  | .ecdsa => ECDSAKeyManager.generateCommittedSeals sealMap
  | .bls => BLSKeyManager.generateCommittedSeals crypto sealMap vals

def verifyCommittedSeals (seals : Seals) (message : Bytes) (vals : Validators) :
    Except SignerError Nat :=
  match keyManager.type, seals with
  | .ecdsa, .serialized seals =>
    if vals.validatorType ≠ .ecdsa then .error .invalidValidators
    else ECDSAKeyManager.verifyCommittedSealsImpl crypto seals message vals
  | .bls, .aggregated bitmap signature =>
    if vals.validatorType ≠ .bls then .error .invalidValidators
    else BLSKeyManager.verifyBLSCommittedSealsImpl crypto bitmap signature message vals
  | _, _ => .error .invalidCommittedSealType

end KeyManager

structure Signer where
  keyManager : KeyManager
  parentKeyManager : Option KeyManager

namespace Signer

variable (crypto : Crypto) (codec : Rlp.Codec) (s : Signer)

def parentType (number : Nat) : Except (Fault SignerError) (Option ValidatorType) :=
  if number > 1 then
    match s.parentKeyManager with
    | none => .error (.panic .nilDereference)
    | some keyManager => .ok (some keyManager.type)
  else .ok none

def getIBFTExtra (header : Header) : Except (Fault SignerError) IstanbulExtra := do
  liftError (verifyIBFTExtraSize header)
  let data := header.extraData.drop IstanbulExtra.vanity
  let parentType ← s.parentType header.number
  liftError (unmarshalRlp codec (IstanbulExtra.unmarshalRLPFrom s.keyManager.type parentType) data)

def getValidators (header : Header) : Except (Fault SignerError) Validators := do
  let extra ← s.getIBFTExtra codec header
  return extra.validators

def getParentCommittedSeals (header : Header) : Except SignerError Seals := do
  verifyIBFTExtraSize header
  let data := header.extraData.drop IstanbulExtra.vanity
  unmarshalRlp codec (IstanbulExtra.unmarshalParentCommittedSeals s.keyManager.type) data

def initIbftExtra (header : Header) (validators : Validators) (parentCommittedSeal : Option Seals) :
    Header :=
  putIbftExtra codec header
    ⟨validators, [], Seals.empty s.keyManager.type, parentCommittedSeal⟩

def hashedParentSeals : Option Seals → Except (Fault SignerError) (Option Seals)
  | none => .ok none
  | some seals => do
    let num ← seals.num
    return if num = 0 then none else some seals

def filterHeaderForHash (header : Header) : Except (Fault SignerError) Header := do
  let extra ← s.getIBFTExtra codec header
  let parentCommittedSeals ← hashedParentSeals extra.parentCommittedSeals
  return s.initIbftExtra codec header extra.validators parentCommittedSeals

def calculateHeaderHash (header : Header) : Except (Fault SignerError) Hash := do
  let filteredHeader ← s.filterHeaderForHash codec header
  return Nxchain.calculateHeaderHash crypto codec filteredHeader

def ecrecoverFromHeader (header : Header) : Except (Fault SignerError) Address := do
  let extra ← s.getIBFTExtra codec header
  liftError (crypto.ecrecover extra.proposerSeal (crypto.keccak256 header.hash.toBytes).toBytes)

def verifyCommittedSeal (validators : Validators) (signer : Address) (signature hash : Bytes) :
    Except SignerError Unit :=
  s.keyManager.verifyCommittedSeal crypto validators signer signature (crypto.commitMessage hash)

def writeProposerSeal (signProposerSeal : Bytes → Except SignerError Bytes) (header : Header) :
    Except (Fault SignerError) Header := do
  let hash ← s.calculateHeaderHash crypto codec header
  let proposerSeal ← liftError (signProposerSeal (crypto.keccak256 hash.toBytes).toBytes)
  return { header with
    extraData := packProposerSealIntoExtra codec header.extraData proposerSeal }

def writeCommittedSeals (header : Header) (sealMap : List (Address × Bytes)) :
    Except (Fault SignerError) Header := do
  if sealMap.length = 0 then
    throw (.error .emptyCommittedSeals)
  let validators ← s.getValidators codec header
  let committedSeal ← liftError (s.keyManager.generateCommittedSeals crypto sealMap validators)
  return { header with
    extraData := packCommittedSealsIntoExtra codec header.extraData committedSeal }

def verifyCommittedSeals (header : Header) (validators : Validators) (quorumSize : Nat) :
    Except (Fault SignerError) Unit := do
  let extra ← s.getIBFTExtra codec header
  let hash ← s.calculateHeaderHash crypto codec header
  let numSeals ← liftError (s.keyManager.verifyCommittedSeals crypto extra.committedSeals
    (crypto.commitMessage hash.toBytes) validators)
  if numSeals < quorumSize then
    throw (.error .notEnoughCommittedSeals)

def verifyParentCommittedSeals (parent header : Header) (parentValidators : Validators)
    (quorum : Nat) (mustExist : Bool) : Except (Fault SignerError) Unit := do
  let parentCommittedSeals ← liftError (s.getParentCommittedSeals codec header)
  if (← parentCommittedSeals.num) = 0 then
    -- past headers may come without the seals of their parent
    if mustExist then
      throw (.error .emptyParentCommittedSeals)
  else
    let numSeals ← liftError (s.keyManager.verifyCommittedSeals crypto parentCommittedSeals
      (crypto.commitMessage parent.hash.toBytes) parentValidators)
    if numSeals < quorum then
      throw (.error .notEnoughCommittedSeals)

end Signer

def Crypto.toy : Crypto where
  keccak256 := FixedBytes.ofBytes 32
  recoverCompact sig _ :=
    if sig.length = IstanbulExtra.sealLength then .ok (FixedBytes.ofBytes 20 sig)
    else .error "invalid compact signature size"
  bls := {
    PublicKey := Nat
    Signature := Nat
    MultiPublicKey := Nat
    MultiSignature := Nat
    unmarshalPublicKey b := .ok (Rlp.ofBigEndian b)
    unmarshalSignature b := .ok (Rlp.ofBigEndian b)
    verify key _ signature := .ok (key = signature)
    aggregateSignatures signatures := .ok signatures.sum
    marshalMultiSignature signature := .ok (1 :: Rlp.bigEndian signature)
    unmarshalMultiSignature b := .ok (Rlp.ofBigEndian (b.drop 1))
    aggregatePublicKeys keys := .ok keys.sum
    verifyMultiSignature key _ signature := .ok (key = signature) }

def sampleAddress (n : UInt8) : Address := FixedBytes.ofBytes 20 [n]

def Crypto.toySeal (address : Address) : Bytes := List.replicate 44 0 ++ address.toBytes ++ [0]

theorem Crypto.toy_ecrecover_toySeal (address : Address) (msg : Bytes) :
    Crypto.toy.ecrecover (Crypto.toySeal address) msg = .ok address := by
  have hbytes : FixedBytes.ofBytes 20 (27 :: (List.replicate 44 0 ++ address.toBytes)) = address := by
    apply FixedBytes.ext
    simp [FixedBytes.ofBytes, address.length_toBytes]
  have hlength : (27 :: (List.replicate 44 (0 : UInt8) ++ address.toBytes)).length = IstanbulExtra.sealLength := by
    simp [address.length_toBytes, IstanbulExtra.sealLength]
  have hrecover : Crypto.toy.recoverCompact (27 :: (List.replicate 44 0 ++ address.toBytes)) msg = .ok address := by
    change (if _ then _ else _) = _
    rw [if_pos hlength, hbytes]
  unfold Crypto.ecrecover Crypto.toySeal
  rw [List.getLast?_concat, List.dropLast_concat]
  exact congrArg (Except.mapError SignerError.crypto) hrecover

end Nxchain
