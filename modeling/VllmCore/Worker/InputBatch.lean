import VllmCore.Core.Request
import VllmCore.Lib.Dict

/-! # The persistent batch of a worker

`InputBatch` keeps one row per request in about twenty arrays and dictionaries. A worker step removes
requests, adds others into the freed rows, condenses the remaining holes away and may reorder rows;
`BatchUpdateBuilder` writes down what happened for those who keep state per row. The per-row arrays
that are only copied are one family, indexed by `RowField`. -/

namespace VllmCore.Worker

open Except Function

/-- What the worker reads of the sampling parameters. No allowed tokens and no bad words are `[]`. -/
structure SamplingParams where
  greedy : Bool := false
  temperature : Rat := 1
  topP : Rat := 1
  topK : Int := 0
  frequencyPenalty : Rat := 0
  presencePenalty : Rat := 0
  repetitionPenalty : Rat := 1
  minP : Rat := 0
  allowedTokenIds : List TokenId := []
  badWordsTokenIds : List (List TokenId) := []
  thinkingTokenBudget : Option Nat := none

def lengthFromPromptTokenIdsOrEmbeds (promptTokenIds : Option (List TokenId)) (promptEmbeds : Option (List Nat)) :
    Except Err Nat :=
  match promptTokenIds, promptEmbeds with
  | none, none => .error (.valueError "Neither prompt_token_ids nor prompt_embeds were defined.")
  | none, some e => .ok e.length
  | some t, none => .ok t.length
  | some t, some e =>
    if e.length ≠ t.length then .error (.valueError "Prompt token ids and prompt embeds had different lengths")
    else .ok t.length

/-- A prompt embedding is one opaque row per token; `prompt_is_token_ids` has one entry per position.
`sampling_params` is `None` for pooling requests. -/
structure CachedRequestState where
  reqId : RequestId
  promptTokenIds : Option (List TokenId)
  samplingParams : Option SamplingParams
  generator : Option Nat := none
  blockIds : List (List BlockId) := []
  numComputedTokens : Nat := 0
  outputTokenIds : List TokenId := []
  loraIntId : Option Nat := none
  promptEmbeds : Option (List Nat) := none
  promptIsTokenIds : Option (List Bool) := none
  numPromptTokens : Nat
  prompt_ok : lengthFromPromptTokenIdsOrEmbeds promptTokenIds promptEmbeds = .ok numPromptTokens
  mask_ok : ∀ l ∈ promptIsTokenIds, l.length = numPromptTokens := by simp

namespace CachedRequestState

def numTokens (r : CachedRequestState) : Nat := r.numPromptTokens + r.outputTokenIds.length

def allowed (r : CachedRequestState) : List TokenId := (r.samplingParams.map (·.allowedTokenIds)).getD []

end CachedRequestState

/-! ### What a step tells the logits processors -/

inductive MoveDirectionality where
  | unidirectional
  | swap
deriving DecidableEq, Repr

structure BatchUpdateBuilder where
  removed : List Nat := []
  isRemovedSorted : Bool := false
  added : List (Nat × CachedRequestState) := []
  moved : List (Nat × Nat × MoveDirectionality) := []

namespace BatchUpdateBuilder
variable (u : BatchUpdateBuilder)

/-- `_ensure_removed_sorted`: descending order. -/
def ensureRemovedSorted : BatchUpdateBuilder :=
  if u.isRemovedSorted then u
  else { u with removed := u.removed.insertionSort (· ≥ ·), isRemovedSorted := true }

def removedAppend (index : Nat) : Except Err BatchUpdateBuilder := do
  ensure (u.isRemovedSorted = false)
    (.runtimeError "Cannot register new removed request after self.removed has been read.")
  pure { u with removed := u.removed ++ [index] }

def peekRemoved : Option Nat := u.ensureRemovedSorted.removed.getLast?

def popRemoved : Option Nat × BatchUpdateBuilder :=
  if u.removed = [] then (none, u)
  else
    let u := u.ensureRemovedSorted
    (u.removed.getLast?, { u with removed := u.removed.dropLast })

end BatchUpdateBuilder

/-! ### The batch -/

/-- The arrays with one number per row that no operation computes with. -/
inductive RowField where
  | numPromptTokens | replayssmDecodeBase | numComputedTokens | requestLoraMapping
  | temperature | topP | topK | frequencyPenalties | presencePenalties | repetitionPenalties
  | numAcceptedTokens
deriving DecidableEq, Repr

/-- What never changes. -/
structure BatchConfig where
  maxNumReqs : Nat
  vocabSize : Nat
  isPoolingModel : Bool := false
  useReplayssm : Bool := false

/-- The arrays `add_request` writes at the row, and what it writes; an array it leaves alone is `none`. -/
def BatchConfig.addedField (b : BatchConfig) (request : CachedRequestState) : RowField → Option Rat
  | .numPromptTokens => some request.numPromptTokens
  | .replayssmDecodeBase => if b.useReplayssm then some request.numTokens else none
  | .numComputedTokens => some request.numComputedTokens
  | .requestLoraMapping => some (Nat.cast (request.loraIntId.getD 0))
  | .temperature => request.samplingParams.map fun p => if p.greedy then 0 else p.temperature
  | .topP => request.samplingParams.map (·.topP)
  | .topK => request.samplingParams.map fun p =>
    if 0 < p.topK ∧ p.topK < Int.ofNat b.vocabSize then (p.topK : Rat) else (b.vocabSize : Rat)
  | .frequencyPenalties => request.samplingParams.map (·.frequencyPenalty)
  | .presencePenalties => request.samplingParams.map (·.presencePenalty)
  | .repetitionPenalties => request.samplingParams.map (·.repetitionPenalty)
  | .numAcceptedTokens => some 1

/-- The arrays `condense` and `swap_states` carry along: the sampling ones only for sampling models. -/
def BatchConfig.carries (b : BatchConfig) : RowField → Bool
  | .numPromptTokens | .numComputedTokens | .requestLoraMapping => true
  | .replayssmDecodeBase => b.useReplayssm
  | _ => !b.isPoolingModel

/-- `allowed_token_ids_mask` is allocated by the first request that needs it. Token and block rows
are functions of the column; the block table of a row has one list per cache group. -/
structure InputBatch extends BatchConfig where
  reqIds : List (Option RequestId) := []
  reqIdToIndex : Dict RequestId Nat := Dict.empty
  reqOutputTokenIds : List (Option (List TokenId)) := []
  specTokenIds : List (List TokenId) := List.replicate maxNumReqs []
  tokenIds : Nat → Nat → TokenId := fun _ _ => 0
  isTokenIds : Nat → Nat → Bool := fun _ _ => false
  reqPromptEmbeds : Dict Nat (List Nat) := Dict.empty
  numTokensNoSpec : Nat → Nat := fun _ => 0
  field : RowField → Nat → Rat := fun _ _ => 0
  blockTable : Nat → List (List BlockId) := fun _ => []
  generators : Dict Nat Nat := Dict.empty
  badWordsTokenIds : Dict Nat (List (List TokenId)) := Dict.empty
  allowedTokenIdsMask : Option (Nat → TokenId → Bool) := none
  builder : BatchUpdateBuilder := {}

/-- `row[start : start + len(values)] = values`. -/
def writeAt {α : Type} (row : Nat → α) (start : Nat) (values : List α) : Nat → α := fun j =>
  if start ≤ j then values.getD (j - start) (row j) else row j

/-- `dst[:n] = src[:n]`. -/
def copyFirst {α : Type} (n : Nat) (src dst : Nat → α) : Nat → α := fun j => if j < n then src j else dst j

/-- `d[k] = v` if there is a `v`. -/
def setSome {α : Type} (d : Dict Nat α) (k : Nat) : Option α → Dict Nat α
  | some v => d.set k v
  | none => d

/-- `d[k] = v`, and no entry when there is no `v`. -/
def assign {α : Type} (d : Dict Nat α) (k : Nat) : Option α → Dict Nat α
  | some v => d.set k v
  | none => d.erase k

@[simp] theorem get?_setSome {α : Type} (d : Dict Nat α) (k j : Nat) (v : Option α) :
    (setSome d k v).get? j = if j = k then v.or (d.get? k) else d.get? j := by
  cases v with
  | none => by_cases hj : j = k <;> simp [setSome, hj]
  | some x => simp [setSome]

@[simp] theorem get?_assign {α : Type} (d : Dict Nat α) (k j : Nat) (v : Option α) :
    (assign d k v).get? j = if j = k then v else d.get? j := by
  cases v <;> simp [assign]

def swapDictValues {α : Type} (d : Dict Nat α) (k1 k2 : Nat) : Dict Nat α :=
  assign (assign d k2 (d.get? k1)) k1 (d.get? k2)

/-- `d[b] = d.pop(a)`, if `a` has an entry. -/
def moveEntry {α : Type} (d : Dict Nat α) (a b : Nat) : Dict Nat α := setSome (d.erase a) b (d.get? a)

/-- `xs[i1], xs[i2] = xs[i2], xs[i1]` on an array of numbers. -/
def swapAt {α : Type} (f : Nat → α) (i1 i2 : Nat) : Nat → α :=
  update (update f i1 (f i2)) i2 (f i1)

/-- The same on a list with both indices. -/
def swapList {α : Type} (l : List α) (i1 i2 : Nat) : List α :=
  match l[i1]?, l[i2]? with
  | some x, some y => (l.set i1 y).set i2 x
  | _, _ => l

namespace InputBatch
variable (b : InputBatch)

def numReqs : Nat := b.reqIdToIndex.entries.length

def indexOf (reqId : RequestId) : Except Err Nat :=
  match b.reqIdToIndex.get? reqId with
  | some i => .ok i
  | none => .error .keyError

/-- The row the next request gets: the lowest freed one, or the end of the batch. -/
def nextRow : Nat := b.builder.popRemoved.1.getD b.numReqs

variable (request : CachedRequestState)

def registerAddRequest : Except Err (Nat × InputBatch) := do
  let newReqIndex := b.nextRow
  ensure (newReqIndex < b.maxNumReqs) (.assertionError "new_req_index < self.max_num_reqs")
  let u := b.builder.popRemoved.2
  let added := if request.samplingParams.isSome then u.added ++ [(newReqIndex, request)] else u.added
  pure (newReqIndex, { b with builder := { u with added := added } })

/-- Prompt tokens given by embeddings alone leave their columns of `token_ids_cpu` as they are. -/
def addedTokens (row : Nat → TokenId) : Nat → TokenId :=
  writeAt (writeAt row 0 (request.promptTokenIds.getD [])) request.numPromptTokens request.outputTokenIds

def addedIsTokens (row : Nat → Bool) : Nat → Bool :=
  let prompt := match request.promptTokenIds with
    | some _ => request.promptIsTokenIds.getD (List.replicate request.numPromptTokens true)
    | none => List.replicate request.numPromptTokens false
  writeAt (writeAt row 0 prompt) request.numPromptTokens (List.replicate request.outputTokenIds.length true)

/-- A request with allowed tokens masks every other token; one without does not touch the mask. -/
def addedMask (row : Nat) : Option (Nat → TokenId → Bool) :=
  if request.allowed = [] then b.allowedTokenIdsMask
  else some (update (b.allowedTokenIdsMask.getD fun _ _ => false) row fun t => t ∉ request.allowed)

/-- The writes of `add_request` at the row it was given. -/
def fillRow (i : Nat) (request : CachedRequestState) : InputBatch :=
  { b with
    reqIds := if i = b.reqIds.length then b.reqIds ++ [some request.reqId] else b.reqIds.set i (some request.reqId)
    reqOutputTokenIds := if i = b.reqIds.length then b.reqOutputTokenIds ++ [some request.outputTokenIds]
      else b.reqOutputTokenIds.set i (some request.outputTokenIds)
    specTokenIds := if i = b.reqIds.length then b.specTokenIds ++ [[]] else b.specTokenIds.set i []
    reqIdToIndex := b.reqIdToIndex.set request.reqId i
    tokenIds := update b.tokenIds i (addedTokens request (b.tokenIds i))
    isTokenIds := update b.isTokenIds i (addedIsTokens request (b.isTokenIds i))
    reqPromptEmbeds := setSome b.reqPromptEmbeds i request.promptEmbeds
    numTokensNoSpec := update b.numTokensNoSpec i request.numTokens
    field := fun f => match b.addedField request f with
      | some v => update (b.field f) i v
      | none => b.field f
    blockTable := update b.blockTable i request.blockIds
    generators := if request.samplingParams.isSome then setSome b.generators i request.generator else b.generators
    badWordsTokenIds := match request.samplingParams with
      | some p => if p.badWordsTokenIds = [] then b.badWordsTokenIds
        else b.badWordsTokenIds.set i p.badWordsTokenIds
      | none => b.badWordsTokenIds
    allowedTokenIdsMask := b.addedMask request i }

def addRequest : Except Err InputBatch := do
  let (i, b) ← b.registerAddRequest request
  pure (b.fillRow i request)

/-- Spec tokens stand behind the tokens of the row. -/
def writeSpec (i : Nat) (specTokenIds : List TokenId) : InputBatch :=
  { b with
    tokenIds := update b.tokenIds i (writeAt (b.tokenIds i) (b.numTokensNoSpec i) specTokenIds)
    isTokenIds := update b.isTokenIds i
      (writeAt (b.isTokenIds i) (b.numTokensNoSpec i) (List.replicate specTokenIds.length true))
    specTokenIds := b.specTokenIds.set i specTokenIds }

def updateReqSpecTokenIds (reqId : RequestId) (specTokenIds : List TokenId) : Except Err InputBatch := do
  let i ← b.indexOf reqId
  pure (b.writeSpec i specTokenIds)

/-- The writes of `remove_request`. `clear_row` keeps one empty list per group; only sampling models
have the last three entries. -/
def clearRow (i : Nat) (reqId : RequestId) : InputBatch :=
  { b with
    reqIdToIndex := b.reqIdToIndex.erase reqId
    reqIds := b.reqIds.set i none
    reqOutputTokenIds := b.reqOutputTokenIds.set i none
    specTokenIds := b.specTokenIds.set i []
    blockTable := update b.blockTable i ((b.blockTable i).map fun _ => [])
    field := update b.field .requestLoraMapping (update (b.field .requestLoraMapping) i 0)
    generators := if b.isPoolingModel then b.generators else b.generators.erase i
    allowedTokenIdsMask := if b.isPoolingModel then b.allowedTokenIdsMask
      else b.allowedTokenIdsMask.map fun m => update m i fun _ => false
    badWordsTokenIds := if b.isPoolingModel then b.badWordsTokenIds else b.badWordsTokenIds.erase i }

def removeRequest (reqId : RequestId) : Except Err InputBatch :=
  match b.reqIdToIndex.get? reqId with
  | none => .ok b
  | some i => do
    let u ← b.builder.removedAppend i
    pure ({ b with builder := u }.clearRow i reqId)

def getActiveTokenCount (i : Nat) : Nat := b.numTokensNoSpec i + (b.specTokenIds.getD i []).length

/-- Assigning a pair of tensor rows from a pair of views: the second view already shows the first
write, so both rows end as the old row `i2`. -/
def swapMask (m : Nat → TokenId → Bool) (i1 i2 : Nat) : Nat → TokenId → Bool :=
  let m := update m i1 (m i2)
  update m i2 (m i1)

/-- The writes of `swap_states`, where the requests of the rows are registered at `index1` and `index2`. -/
def swapRows (i1 i2 : Nat) (old1 old2 : RequestId) (index1 index2 : Nat) : InputBatch :=
  let n := max (b.getActiveTokenCount i1) (b.getActiveTokenCount i2)
  { b with
    reqIds := swapList b.reqIds i1 i2
    reqOutputTokenIds := swapList b.reqOutputTokenIds i1 i2
    specTokenIds := swapList b.specTokenIds i1 i2
    reqIdToIndex := (b.reqIdToIndex.set old1 index2).set old2 index1
    numTokensNoSpec := swapAt b.numTokensNoSpec i1 i2
    field := fun f => if b.carries f then swapAt (b.field f) i1 i2 else b.field f
    tokenIds := update (update b.tokenIds i1 (copyFirst n (b.tokenIds i2) (b.tokenIds i1)))
      i2 (copyFirst n (b.tokenIds i1) (b.tokenIds i2))
    isTokenIds := update (update b.isTokenIds i1 (copyFirst n (b.isTokenIds i2) (b.isTokenIds i1)))
      i2 (copyFirst n (b.isTokenIds i1) (b.isTokenIds i2))
    reqPromptEmbeds := swapDictValues b.reqPromptEmbeds i1 i2
    blockTable := swapAt b.blockTable i1 i2
    builder := if b.isPoolingModel then b.builder
      else { b.builder with moved := b.builder.moved ++ [(i1, i2, .swap)] }
    generators := if b.isPoolingModel then b.generators else swapDictValues b.generators i1 i2
    badWordsTokenIds := if b.isPoolingModel then b.badWordsTokenIds else swapDictValues b.badWordsTokenIds i1 i2
    allowedTokenIdsMask := if b.isPoolingModel then b.allowedTokenIdsMask
      else b.allowedTokenIdsMask.map fun m => swapMask m i1 i2 }

def swapStates (i1 i2 : Nat) : Except Err InputBatch :=
  match b.reqIds[i1]?, b.reqIds[i2]? with
  | some (some old1), some (some old2) => do
    let index1 ← b.indexOf old1
    let index2 ← b.indexOf old2
    pure (b.swapRows i1 i2 old1 old2 index1 index2)
  | some _, some _ => .error (.assertionError "old_id_i1 is not None and old_id_i2 is not None")
  | _, _ => .error .indexError

/-- The writes of one round of `condense`: the request in row `last` moves down into the hole `empty`. -/
def moveDown (last empty : Nat) (reqId : RequestId) : InputBatch :=
  let n := b.getActiveTokenCount last
  { b with
    builder := { b.builder.popRemoved.2 with
      moved := if b.isPoolingModel then b.builder.moved else b.builder.moved ++ [(last, empty, .unidirectional)] }
    reqIds := (b.reqIds.set empty (some reqId)).set last none
    reqOutputTokenIds := (b.reqOutputTokenIds.set empty (b.reqOutputTokenIds.getD last none)).set last none
    reqIdToIndex := b.reqIdToIndex.set reqId empty
    specTokenIds := (b.specTokenIds.set empty (b.specTokenIds.getD last [])).set last []
    tokenIds := update b.tokenIds empty (copyFirst n (b.tokenIds last) (b.tokenIds empty))
    isTokenIds := update b.isTokenIds empty (copyFirst n (b.isTokenIds last) (b.isTokenIds empty))
    reqPromptEmbeds := moveEntry b.reqPromptEmbeds last empty
    numTokensNoSpec := update b.numTokensNoSpec empty (b.numTokensNoSpec last)
    field := fun f => if b.carries f then update (b.field f) empty (b.field f last) else b.field f
    blockTable := update (update b.blockTable empty (b.blockTable last)) last ((b.blockTable last).map fun _ => [])
    generators := if b.isPoolingModel then b.generators else moveEntry b.generators last empty
    allowedTokenIdsMask := if b.isPoolingModel then b.allowedTokenIdsMask
      else b.allowedTokenIdsMask.map fun m => update m empty (m last)
    badWordsTokenIds := if b.isPoolingModel then b.badWordsTokenIds else moveEntry b.badWordsTokenIds last empty }

def moveRow (last empty : Nat) : Except Err InputBatch :=
  match b.reqIds[last]? with
  | some (some reqId) => .ok (b.moveDown last empty reqId)
  | some none => .error (.assertionError "req_id is not None")
  | none => .error .indexError

/-- `while last_req_index in empty_req_indices: last_req_index -= 1`. -/
def lastNonEmpty (removed : List Nat) : Nat → Nat
  | 0 => 0
  | last + 1 => if last + 1 ∈ removed then lastNonEmpty removed last else last + 1

/-- The outer loop; every round takes one removed index, so their number is fuel enough. -/
def condenseLoop : Nat → InputBatch → Nat → Except Err InputBatch
  | 0, b, _ => .ok b
  | fuel + 1, b, last =>
    match b.builder.peekRemoved with
    | none => .ok b
    | some empty =>
      let last := lastNonEmpty b.builder.removed last
      if last ≤ empty then .ok b
      else do
        let b ← b.moveRow last empty
        condenseLoop fuel b (last - 1)

/-- `del xs[n:]` on the three lists. -/
def cut (n : Nat) : InputBatch :=
  { b with
    reqIds := b.reqIds.take n
    reqOutputTokenIds := b.reqOutputTokenIds.take n
    specTokenIds := b.specTokenIds.take n }

def condense : Except Err InputBatch :=
  let b := { b with builder := b.builder.ensureRemovedSorted }
  if b.builder.removed = [] then .ok b
  else if b.numReqs = 0 then .ok (b.cut 0)
  else do
    let n := b.numReqs
    let b ← condenseLoop b.builder.removed.length b (n + b.builder.removed.length - 1)
    pure (b.cut n)

end InputBatch

/-! ### Worker steps -/

/-- The calls a worker makes on its batch. `sample k` is the `k`-th forward pass, which leaves the
batch alone but moves on what the sampler keeps per row. -/
inductive Op where
  | remove (reqId : RequestId)
  | add (request : CachedRequestState)
  | updateSpec (reqId : RequestId) (specTokenIds : List TokenId)
  | condense
  | swap (i1 i2 : Nat)
  | refresh
  | sample (k : Nat)

/-- One step: removals, then additions and spec updates, then `condense`, then reordering; at its end
the recorded update is handed over and the model runs. -/
structure WorkerStep where
  removals : List RequestId := []
  edits : List (CachedRequestState ⊕ RequestId × List TokenId) := []
  swaps : List (Nat × Nat) := []
  sample : Nat := 0

def WorkerStep.ops (st : WorkerStep) : List Op :=
  st.removals.map .remove ++ (st.edits.map (Sum.elim .add fun e => .updateSpec e.1 e.2) ++
    .condense :: (st.swaps.map (fun p => .swap p.1 p.2) ++ [.refresh, .sample st.sample]))

/-- `refresh_metadata` starts a new update. -/
def InputBatch.step (b : InputBatch) : Op → Except Err InputBatch
  | .remove reqId => b.removeRequest reqId
  | .add request => b.addRequest request
  | .updateSpec reqId specTokenIds => b.updateReqSpecTokenIds reqId specTokenIds
  | .condense => b.condense
  | .swap i1 i2 => b.swapStates i1 i2
  | .refresh => .ok { b with builder := {} }
  | .sample _ => .ok b

section Runs

variable {G : Type} (onOp : InputBatch → Op → G → G)

/-- The batch together with what an observer keeps, who sees the batch before every call. -/
def stepWith (x : G × InputBatch) (op : Op) : Except Err (G × InputBatch) := do
  let b ← x.2.step op
  pure (onOp x.2 op x.1, b)

def runWith (ops : List Op) (x : G × InputBatch) : Except Err (G × InputBatch) := ops.foldlM (stepWith onOp) x

/-- `C` holds before every call of the run. -/
def Along (C : G → InputBatch → Op → Prop) : List Op → G × InputBatch → Prop
  | [], _ => True
  | op :: ops, x => C x.1 x.2 op ∧ ∀ y, stepWith onOp x op = .ok y → Along C ops y

variable {onOp} in
theorem Along.cons {C : G → InputBatch → Op → Prop} {op : Op} {ops : List Op} {x y : G × InputBatch}
    (hy : stepWith onOp x op = .ok y) (hc : C x.1 x.2 op) (h : Along onOp C ops y) : Along onOp C (op :: ops) x := by
  refine ⟨hc, fun y' hy' => ?_⟩
  rw [hy] at hy'
  cases hy'
  exact h

end Runs

end VllmCore.Worker
