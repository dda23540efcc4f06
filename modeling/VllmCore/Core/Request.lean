import VllmCore.Lib.Except

/-! # Requests and their block hashes

The request record of the scheduler, its constructor, and the hasher that turns its tokens into a
chain of block hashes (`request.py`, `kv_cache_utils.py`).

Strings that the code only compares (request ids, LoRA names, cache salts, multimodal identifiers) are
natural numbers. Arrival times are integers: the code only orders them. -/

namespace VllmCore

abbrev RequestId := Nat
abbrev BlockId := Nat
abbrev TokenId := Int

/-- The Python exceptions the modelled code can raise, with their message. -/
inductive Err where
  | assertionError (msg : String)
  | valueError (msg : String)
  | runtimeError (msg : String)
  | indexError
  | keyError
  | notImplementedError (msg : String)
deriving DecidableEq, Repr

/-- `cdiv(a, b) = -(a // -b)`. -/
def cdiv (a b : Nat) : Nat := (a + b - 1) / b

/-! ### Request data -/

inductive RequestStatus where
  | waiting
  | waitingForStructuredOutputGrammar
  | waitingForRemoteKvs
  | waitingForStreamingReq
  | running
  | preempted
  | finishedStopped
  | finishedLengthCapped
  | finishedAborted
  | finishedIgnored
  | finishedError
  | finishedRepetition
deriving DecidableEq, Repr

/-- `status > RequestStatus.PREEMPTED`. -/
def RequestStatus.isFinished : RequestStatus → Bool
  | waiting | waitingForStructuredOutputGrammar | waitingForRemoteKvs | waitingForStreamingReq
  | running | preempted => false
  | _ => true

/-- Where a multimodal item sits in the prompt; `isEmbed` marks the positions that take an embedding. -/
structure PlaceholderRange where
  offset : Nat
  length : Nat
  isEmbed : Option (List Bool) := none
deriving DecidableEq, Repr

structure MultiModalFeatureSpec where
  identifier : Nat
  mmPosition : PlaceholderRange
deriving DecidableEq, Repr

structure LoRARequest where
  name : Nat
  adapterId : Nat
deriving DecidableEq, Repr

structure RepetitionDetectionParams where
  maxPatternSize : Int
  minPatternSize : Int
  minCount : Int
deriving DecidableEq, Repr

structure SamplingParams where
  maxTokens : Nat
  minTokens : Nat := 0
  eosTokenId : Option TokenId := none
  stopTokenIds : List TokenId := []
  repetitionDetection : Option RepetitionDetectionParams := none
  skipReadingPrefixCache : Option Bool := none
  /-- the parameters ask for structured output, so the request waits for a grammar -/
  structuredOutputs : Bool := false
deriving DecidableEq, Repr

structure PoolingParams where
  skipReadingPrefixCache : Option Bool := none
deriving DecidableEq, Repr

/-- Prompt embeddings: their number, and the digest of the slice between two positions. -/
structure PromptEmbeds where
  len : Nat
  digest : Nat → Nat → Nat

structure StreamingUpdate where
  mmFeatures : List MultiModalFeatureSpec := []
  promptTokenIds : Option (List TokenId)
  maxTokens : Nat
  arrivalTime : Int
  samplingParams : Option SamplingParams

/-! ### Hash inputs -/

/-- One entry of a block's `extra_keys` tuple. LoRA names and cache salts are both plain strings in the
source, so they share a constructor. -/
inductive ExtraKey where
  | name (s : Nat)
  | mm (identifier : Nat) (offset : Int)
  | embeds (digest : Nat)
deriving DecidableEq, Repr

/-- What the hash function is applied to: the seed of `NONE_HASH`, or a block's
`(parent_hash, token_ids, extra_keys)`. -/
inductive HashInput (η : Type) where
  | seed
  | block (parent : η) (tokens : List TokenId) (extraKeys : Option (List ExtraKey))
deriving DecidableEq, Repr

/-- The closure of `get_request_block_hasher`. -/
structure BlockHasher (η : Type) where
  hashBlockSize : Nat
  hashFn : HashInput η → η

def BlockHasher.noneHash {η : Type} (h : BlockHasher η) : η := h.hashFn .seed

structure Request (η : Type) where
  requestId : RequestId
  priority : Int := 0
  arrivalTime : Int := 0
  status : RequestStatus := .waiting
  samplingParams : Option SamplingParams := none
  poolingParams : Option PoolingParams := none
  structuredOutputRequest : Bool := false
  loraRequest : Option LoRARequest := none
  maxTokens : Nat := 0
  promptTokenIds : Option (List TokenId) := none
  promptEmbeds : Option PromptEmbeds := none
  numPromptTokens : Nat := 0
  outputTokenIds : List TokenId := []
  allTokenIds : List TokenId := []
  numOutputPlaceholders : Int := 0
  numStaleOutputTokens : Int := 0
  dropStaleOutput : Bool := false
  numInFlightTokens : Int := 0
  nextDecodeEligibleStep : Nat := 0
  lastSchedSeq : Nat := 0
  specTokenIds : List TokenId := []
  specTokenIdsStepId : Option Nat := none
  numComputedTokens : Nat := 0
  /-- `none` stands for `None` and for the empty string, which the code treats alike -/
  cacheSalt : Option Nat := none
  mmFeatures : List MultiModalFeatureSpec := []
  sessionId : Option Nat := none
  isPrefillChunk : Bool := false
  sharedPrefixBoundary : Nat := 0
  numPreemptions : Nat := 0
  blockHashes : List η := []
  blockHasher : Option (BlockHasher η) := none
  skipReadingPrefixCache : Bool := false
  resumable : Bool := false
  /-- `none` inside the queue means that the client has finished -/
  streamingQueue : Option (List (Option StreamingUpdate)) := none
  abortImmediately : Bool := false

namespace Request
variable {η : Type}

def numTokens (r : Request η) : Nat := r.allTokenIds.length

def numTokensWithSpec (r : Request η) : Nat := r.allTokenIds.length + r.specTokenIds.length

def numOutputTokens (r : Request η) : Nat := r.outputTokenIds.length

def hasEncoderInputs (r : Request η) : Bool := !r.mmFeatures.isEmpty

def isFinished (r : Request η) : Bool := r.status.isFinished

end Request

/-! ### Extra keys -/

/-- The block `[start, stop)` and the feature share a position, in the sense of the two comparisons of
`_gen_mm_extra_hash_keys`. -/
def MultiModalFeatureSpec.overlaps (f : MultiModalFeatureSpec) (start stop : Nat) : Bool :=
  f.mmPosition.offset < stop && start < f.mmPosition.offset + f.mmPosition.length

def MultiModalFeatureSpec.key (f : MultiModalFeatureSpec) (start : Nat) : ExtraKey :=
  .mm f.identifier ((f.mmPosition.offset : Int) - start)

/-- The `while` loop of `_gen_mm_extra_hash_keys`, over the features from `currMmIdx` on. -/
def genMmKeysLoop (start stop : Nat) : List MultiModalFeatureSpec → Nat → List ExtraKey × Nat
  | [], currMmIdx => ([], currMmIdx)
  | f :: fs, currMmIdx =>
    let offset := f.mmPosition.offset
    let length := f.mmPosition.length
    if stop > offset then
      if start ≥ offset + length then genMmKeysLoop start stop fs (currMmIdx + 1)
      else if stop ≥ offset + length then
        let (keys, idx) := genMmKeysLoop start stop fs (currMmIdx + 1)
        (f.key start :: keys, idx)
      else ([f.key start], currMmIdx)
    else ([], currMmIdx)

/-- `_gen_mm_extra_hash_keys`. A negative start index counts from the end; the source asserts that it
does not reach past the first feature, which `-1` never does on a nonempty list. -/
def genMmExtraHashKeys (features : List MultiModalFeatureSpec) (start stop : Nat) (startMmIdx : Int) :
    List ExtraKey × Int :=
  match features.getLast? with
  | none => ([], startMmIdx)
  | some last =>
    if last.mmPosition.offset + last.mmPosition.length ≤ start then ([], startMmIdx)
    else
      let idx : Nat := (if startMmIdx < 0 then features.length + startMmIdx else startMmIdx).toNat
      let (keys, idx) := genMmKeysLoop start stop (features.drop idx) idx
      (keys, idx)

/-- The keys of a block besides its multimodal ones come before (LoRA) or after (salt, embeds) them. -/
def Request.loraKeys {η : Type} (r : Request η) : List ExtraKey :=
  match r.loraRequest with
  | none => []
  | some l => [.name l.name]

def Request.saltKeys {η : Type} (r : Request η) (start : Nat) : List ExtraKey :=
  match r.cacheSalt with
  | none => []
  | some s => if start = 0 then [.name s] else []

def Request.embedsKeys {η : Type} (r : Request η) (start stop : Nat) : List ExtraKey :=
  match r.promptEmbeds with
  | none => []
  | some e => [.embeds (e.digest start stop)]

/-- An empty tuple of keys is passed on as `None`. -/
def packKeys (keys : List ExtraKey) : Option (List ExtraKey) := if keys = [] then none else some keys

def generateBlockHashExtraKeys {η : Type} (r : Request η) (start stop : Nat) (startMmIdx : Int) :
    Option (List ExtraKey) × Int :=
  let (mmKeys, newIdx) := genMmExtraHashKeys r.mmFeatures start stop startMmIdx
  (packKeys (r.loraKeys ++ mmKeys ++ r.saltKeys start ++ r.embedsKeys start stop), newIdx)

/-! ### The hasher -/

namespace BlockHasher
variable {η : Type} (h : BlockHasher η)

/-- `hash_block_tokens`; a missing parent is `NONE_HASH`. -/
def hashBlockTokens (parent : Option η) (tokens : List TokenId) (extraKeys : Option (List ExtraKey)) : η :=
  h.hashFn (.block (parent.getD h.noneHash) tokens extraKeys)

/-- The `while True` loop of `request_block_hasher`. Each round hashes one more block of the request,
so `num_tokens` rounds are enough for a positive block size. -/
def hashLoop (h : BlockHasher η) (r : Request η) : Nat → Nat → Option η → Int → List η
  | 0, _, _, _ => []
  | fuel + 1, start, prev, currMmIdx =>
    let stop := start + h.hashBlockSize
    if stop > r.numTokens then []
    else
      let (extraKeys, idx) := generateBlockHashExtraKeys r start stop currMmIdx
      let tokens := (r.allTokenIds.take stop).drop start
      let blockHash := h.hashBlockTokens prev tokens extraKeys
      blockHash :: hashLoop h r fuel (start + h.hashBlockSize) (some blockHash) idx

/-- `request_block_hasher`: the hashes of the full blocks that are not hashed yet. -/
def hash (r : Request η) : List η :=
  let start := r.blockHashes.length * h.hashBlockSize
  if start + h.hashBlockSize > r.numTokens then []
  else
    -- a request that has hashes already restarts at the last multimodal item
    let currMmIdx : Int := if start > 0 then -1 else 0
    h.hashLoop r r.numTokens start r.blockHashes.getLast? currMmIdx

end BlockHasher

namespace Request
variable {η : Type} (r : Request η)

def updateBlockHashes : Request η :=
  match r.blockHasher with
  | none => r
  | some h => { r with blockHashes := r.blockHashes ++ h.hash r }

def appendOutputTokenIds (tokenIds : List TokenId) : Request η :=
  updateBlockHashes
    { r with
      outputTokenIds := r.outputTokenIds ++ tokenIds
      allTokenIds := r.allTokenIds ++ tokenIds }

/-- The arguments of `Request.__init__` that the model reads. -/
structure Args (η : Type) where
  requestId : RequestId
  promptTokenIds : Option (List TokenId)
  samplingParams : Option SamplingParams
  poolingParams : Option PoolingParams := none
  arrivalTime : Int := 0
  promptEmbeds : Option PromptEmbeds := none
  promptIsTokenIds : Option (List Bool) := none
  mmFeatures : List MultiModalFeatureSpec := []
  loraRequest : Option LoRARequest := none
  cacheSalt : Option Nat := none
  priority : Int := 0
  blockHasher : Option (BlockHasher η) := none
  resumable : Bool := false
  sessionId : Option Nat := none
  abortImmediately : Bool := false

/-- `length_from_prompt_token_ids_or_embeds`. -/
def promptLength (tokens : Option (List TokenId)) (embeds : Option PromptEmbeds) : Except Err Nat :=
  match tokens, embeds with
  | none, none => .error (.valueError "Neither prompt_token_ids nor prompt_embeds were defined.")
  | none, some e => .ok e.len
  | some t, none => .ok t.length
  | some t, some e =>
    if t.length = e.len then .ok t.length
    else .error (.valueError (s!"Prompt token ids and prompt embeds had different lengths" ++
      s!" prompt_token_ids={t.length} prompt_embeds={e.len}"))

/-- The token list a request starts from: positions that hold an embedding are zeroed. -/
def promptTokens (n : Nat) (tokens : Option (List TokenId)) (isTokenIds : Option (List Bool)) : List TokenId :=
  match tokens, isTokenIds with
  | none, _ => List.replicate n 0
  | some t, none => t
  | some t, some m => List.zipWith (fun t isTok => if isTok then t else 0) t m

def getSkipReadingPrefixCache (s : Option SamplingParams) (p : Option PoolingParams) : Bool :=
  match s.bind (·.skipReadingPrefixCache) with
  | some b => b
  | none => ((p.bind (·.skipReadingPrefixCache)).getD false)

/-- Pooling requests produce one token; generative ones have their own limit. -/
def initMaxTokens (s : Option SamplingParams) (p : Option PoolingParams) : Except Err Nat :=
  match p, s with
  | some _, _ => .ok 1
  | none, some s => .ok s.maxTokens
  | none, none => .error (.valueError "sampling_params and pooling_params can't both be unset")

/-- `StructuredOutputRequest.from_sampling_params` makes a request. -/
def usesStructuredOutput (s : Option SamplingParams) : Bool :=
  match s with
  | some s => s.structuredOutputs
  | none => false

def init (a : Args η) : Except Err (Request η) := do
  let maxTokens ← initMaxTokens a.samplingParams a.poolingParams
  let n ← promptLength a.promptTokenIds a.promptEmbeds
  pure (updateBlockHashes
    { requestId := a.requestId
      priority := a.priority
      arrivalTime := a.arrivalTime
      status :=
        if usesStructuredOutput a.samplingParams && a.poolingParams.isNone then
          .waitingForStructuredOutputGrammar
        else .waiting
      samplingParams := a.samplingParams
      poolingParams := a.poolingParams
      structuredOutputRequest := usesStructuredOutput a.samplingParams
      loraRequest := a.loraRequest
      maxTokens
      promptTokenIds := a.promptTokenIds
      promptEmbeds := a.promptEmbeds
      numPromptTokens := n
      allTokenIds := promptTokens n a.promptTokenIds a.promptIsTokenIds
      cacheSalt := a.cacheSalt
      mmFeatures := a.mmFeatures
      sessionId := a.sessionId
      blockHasher := a.blockHasher
      skipReadingPrefixCache := getSkipReadingPrefixCache a.samplingParams a.poolingParams
      resumable := a.resumable
      abortImmediately := a.abortImmediately })

end Request

end VllmCore
