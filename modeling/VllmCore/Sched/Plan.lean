import VllmCore.Sched.Scheduler

/-! # How many tokens a request gets

The parts of `schedule` that size one request's share of a step: the chunk boundaries of Mamba prefills,
the prefill budget, the look-ahead of a drafter, and the encoder inputs. -/

namespace VllmCore
variable {η : Type}

namespace Scheduler
variable (s : Scheduler η)

/-- `_mamba_block_aligned_split`: clip a prefill chunk so that it ends where state has to be cached. -/
def mambaBlockAlignedSplit (request : Request η) (numNewTokens : Int)
    (numNewLocalComputedTokens numExternalComputedTokens : Nat) : Int :=
  let start : Int := request.numComputedTokens + numNewLocalComputedTokens + numExternalComputedTokens
  let prefillEnd : Int := max (request.numPromptTokens : Int) ((request.numTokens : Int) - 1)
  if start ≥ prefillEnd then numNewTokens
  else
    let blockSize : Int := s.config.cacheBlockSize
    let hashBlockSize : Int := s.config.hashBlockSize
    let numTokens : Int := request.numTokens
    let numPromptTokens : Int := request.numPromptTokens
    let stop := start + numNewTokens
    let checkpointPosition :=
      getMambaPrefillCheckpointPosition prefillEnd.toNat s.config.hashBlockSize s.config.useEagleBlockDrop
    let useInternalCheckpoint := s.mamba.hasPrefillCheckpointBlocks && decide (stop ≥ prefillEnd) &&
      isMambaPrefillCheckpointValid start.toNat stop.toNat checkpointPosition s.config.hashBlockSize
        s.config.cacheBlockSize s.mamba.prefillCheckpointAlignment
    -- with EAGLE the last matching block is pruned, so back off one block
    let lastBlock := numTokens - numTokens % blockSize
    let lastCachePosition :=
      if useInternalCheckpoint then 0
      else if s.config.useEagleBlockDrop then max (lastBlock - blockSize) 0
      else lastBlock
    let maxPrefillTokens := s.config.maxNumScheduledTokens
    let maxPrefillTokens := if s.config.exl3PrefillAuto then min maxPrefillTokens 2048 else maxPrefillTokens
    let threshold := s.config.longPrefillTokenThreshold
    let maxPrefillTokens := if threshold > 0 then min maxPrefillTokens threshold else maxPrefillTokens
    let alignedEnd := stop / blockSize * blockSize
    -- a block too wide for one chunk advances inside the block and aligns at the next boundary
    let stop :=
      if stop < prefillEnd ∧ (alignedEnd > start ∨ s.config.cacheBlockSize ≤ maxPrefillTokens) then alignedEnd else stop
    let nextBlockBoundary := (start / blockSize + 1) * blockSize
    let promptTail :=
      if s.mamba.partialCacheHit && !useInternalCheckpoint then numPromptTokens / hashBlockSize * hashBlockSize else 0
    let tailBoundary :=
      if promptTail ≠ 0 ∧ s.config.useEagleBlockDrop then max (promptTail - hashBlockSize) 0 else promptTail
    let junction : Int := request.sharedPrefixBoundary
    let blockFloored := start + (junction - start) / blockSize * blockSize
    let junctionStop := if s.mamba.fineGrainedPrefixCache ∧ junction ≤ numPromptTokens then junction else blockFloored
    let stops :=
      [ if start % blockSize ≠ 0 ∧ !useInternalCheckpoint then nextBlockBoundary else 0,
        lastCachePosition,
        if lastCachePosition < tailBoundary ∧ tailBoundary < numPromptTokens then tailBoundary else 0,
        if start < junction ∧ junction < stop then junctionStop else 0 ]
    -- the earliest mandatory position strictly inside the chunk
    let stop := ((stops.filter fun x => decide (start < x ∧ x < stop)).min?).getD stop
    max (stop - start) 0

/-- `_reserve_prefill_lookahead`: a prefill chunk never ends within the drafter's look-ahead of the
prefill end. -/
def reservePrefillLookahead (request : Request η) (numComputedTokens numNewTokens : Int) : Nat :=
  let remaining := (request.numTokens : Int) - numComputedTokens - numNewTokens
  if 0 < remaining ∧ remaining < s.config.numPrefillLookahead then
    (numNewTokens - (s.config.numPrefillLookahead - remaining)).toNat
  else numNewTokens.toNat

/-- `_exl3_prefill_budget`; a large chunk plan is kept until its tail. -/
def exl3PrefillBudget (request : Request η) (numComputedTokens availableTokens : Int) : Int × Scheduler η :=
  let remaining := (request.numPromptTokens : Int) - numComputedTokens
  if remaining < 4096 ∨ availableTokens < 4096 then (2048, s)
  else if remaining ≥ 10240 ∨ request.requestId ∈ s.exl3Int8PrefillRequests then
    (6144, { s with exl3Int8PrefillRequests := insertNew request.requestId s.exl3Int8PrefillRequests })
  else (2048, s)

def capLongPrefill (numNewTokens : Int) : Int :=
  if 0 < s.config.longPrefillTokenThreshold ∧ s.config.longPrefillTokenThreshold < numNewTokens then
    s.config.longPrefillTokenThreshold
  else numNewTokens

/-! ### Encoder inputs -/

/-- The loop of `bisect.bisect_left`. -/
def bisectLoop {α : Type} (key : α → Int) (xs : List α) (x : Int) : Nat → Nat → Nat → Nat
  | 0, lo, _ => lo
  | fuel + 1, lo, hi =>
    if lo < hi then
      let mid := (lo + hi) / 2
      match xs[mid]? with
      | some a => if key a < x then bisectLoop key xs x fuel (mid + 1) hi else bisectLoop key xs x fuel lo mid
      | none => lo
    else lo

def bisectLeft {α : Type} (key : α → Int) (xs : List α) (x : Int) : Nat := bisectLoop key xs x xs.length 0 xs.length

/-- `get_mm_features_in_window`: the features that overlap `[start, stop)`, for features in order. -/
def getMmFeaturesInWindow (features : List MultiModalFeatureSpec) (start stop : Int) : Nat × Nat :=
  (bisectLeft (fun f => (f.mmPosition.offset + f.mmPosition.length : Nat)) features (start + 1),
    bisectLeft (fun f => (f.mmPosition.offset : Nat)) features stop)

/-- The answer of `_try_schedule_encoder_inputs`. -/
structure EncoderPlan where
  encoderInputsToSchedule : List Nat := []
  numNewTokens : Int
  encoderComputeBudget : Int
  externalLoadEncoderInput : List Nat := []

structure EncoderScan extends EncoderPlan where
  cache : EncoderCache
  mmHashesToSchedule : List Nat := []
  numEmbedsToSchedule : Int := 0

/-- What stays fixed in the loop. `hasCacheItem` is the EC connector's answer. -/
structure EncoderWindow (η : Type) where
  config : SchedulerConfig
  hasCacheItem : RequestId → Nat → Bool
  request : Request η
  numComputedTokens : Int
  shiftComputedTokens : Nat
  encoderWindowEnd : Int

namespace EncoderWindow
variable (w : EncoderWindow η)

/-- Whether the item is scheduled in this step already, or in the cache. -/
def alreadyThere (i : Nat) (f : MultiModalFeatureSpec) (st : EncoderScan) : Except Err (Bool × EncoderScan) :=
  if w.config.isEncoderDecoder then .ok (false, st)
  else if f.identifier ∈ st.mmHashesToSchedule then .ok (true, st)
  else do
    let (hit, cache) ← st.cache.checkAndUpdateCache w.request i
    pure (hit, { st with cache })

/-- The rest of a round, for an item that has to be computed or loaded. -/
def takeItem (i : Nat) (f : MultiModalFeatureSpec) (st : EncoderScan) : Except Err EncoderScan := do
  let startPos : Int := f.mmPosition.offset
  let (a, b) ← f.mmPosition.getEmbedsIndicesInRange (max 0 (w.numComputedTokens - startPos))
    (min (f.mmPosition.length : Int) (w.encoderWindowEnd - startPos))
  let n := f.mmPosition.getNumEmbeds
  -- no embedding in this range
  if b - a = 0 then pure st
  else if w.config.ecConnector && w.hasCacheItem w.request.requestId f.identifier then
    pure { st with
      mmHashesToSchedule := insertNew f.identifier st.mmHashesToSchedule
      externalLoadEncoderInput := st.externalLoadEncoderInput ++ [i]
      numEmbedsToSchedule := st.numEmbedsToSchedule + n }
  else
    pure { st with
      mmHashesToSchedule := insertNew f.identifier st.mmHashesToSchedule
      encoderInputsToSchedule := st.encoderInputsToSchedule ++ [i]
      numEmbedsToSchedule := st.numEmbedsToSchedule + n
      encoderComputeBudget := st.encoderComputeBudget - n }

/-- An item that is not there: it has to fit, and must not be cut if chunking is off. `true` ends the
loop. -/
def admitItem (i : Nat) (f : MultiModalFeatureSpec) (st : EncoderScan) : Except Err (Bool × EncoderScan) :=
  let startPos : Int := f.mmPosition.offset
  if w.config.disableChunkedMmInput ∧ w.numComputedTokens < startPos ∧
      w.numComputedTokens + st.numNewTokens < startPos + f.mmPosition.length then
    .ok (true, { st with numNewTokens := max 0 (startPos - (w.numComputedTokens + w.shiftComputedTokens)) })
  else do
    let (fits, cache) ← st.cache.canAllocate w.request i st.encoderComputeBudget st.numEmbedsToSchedule
    if fits then do
      let st ← w.takeItem i f { st with cache }
      pure (false, st)
    else
      -- stop just before the item, or schedule nothing if it has begun
      pure (true, { st with
        cache
        numNewTokens :=
          if w.numComputedTokens + w.shiftComputedTokens < startPos then
            startPos - (w.numComputedTokens + w.shiftComputedTokens)
          else 0 })

def scanItem (i : Nat) (st : EncoderScan) : Except Err (Bool × EncoderScan) := do
  let f ← w.request.mmFeature i
  if w.config.isEncoderDecoder ∧ w.numComputedTokens > 0 then do
    Except.ensure (f.mmPosition.offset = 0) (.assertionError
      ("Encoder input should be processed at the beginning of " ++
      "the sequence when encoder-decoder models are used."))
    pure (false, st)
  else do
    let (there, st) ← w.alreadyThere i f st
    if there then pure (false, st) else w.admitItem i f st

def scanItems : List Nat → EncoderScan → Except Err EncoderScan
  | [], st => .ok st
  | i :: is, st => do
    let (stop, st) ← w.scanItem i st
    if stop then pure st else scanItems is st

end EncoderWindow

def tryScheduleEncoderInputs (hasCacheItem : RequestId → Nat → Bool) (request : Request η)
    (numComputedTokens numNewTokens encoderComputeBudget : Int) : Except Err (EncoderPlan × Scheduler η) :=
  if numNewTokens = 0 ∨ !request.hasEncoderInputs then .ok ({ numNewTokens, encoderComputeBudget }, s)
  else do
    let shift := s.config.numPrefillLookahead
    let windowEnd := numComputedTokens + numNewTokens + shift
    let (lo, hi) := getMmFeaturesInWindow request.mmFeatures numComputedTokens windowEnd
    let lo := if s.config.isEncoderDecoder then 0 else lo
    let st ← EncoderWindow.scanItems
      { config := s.config, hasCacheItem, request, numComputedTokens, shiftComputedTokens := shift
        encoderWindowEnd := windowEnd }
      (List.range' lo (hi - lo))
      { numNewTokens, encoderComputeBudget, cache := s.encoderCacheManager }
    pure (st.toEncoderPlan, { s with encoderCacheManager := st.cache })

end Scheduler

end VllmCore
