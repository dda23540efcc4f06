import VllmCore.Worker.BatchIndex

/-! # What the rows hold

Every live request has one row, and the row holds what the request's own `add_request` and
`update_req_spec_token_ids` put there: `Faithful` relates the batch to the map from request ids to
requests and their spec tokens. Token rows are compared up to the active count. Three fields are not
cleaned up after a request: an embeddings entry survives its request, `condense` leaves the mask of the
row it moves away from, and swapping two mask rows through views leaves both equal; `Clean` excludes
the calls that would show it. -/

namespace VllmCore.Worker
variable {id : RequestId} {i1 i2 last n : Nat} {u : BatchUpdateBuilder}

open Except Function InputBatch List

@[ext] structure RowView where
  output : Option (List TokenId)
  spec : List TokenId
  numTokensNoSpec : Nat
  field : RowField → Rat
  blocks : List (List BlockId)
  generator : Option Nat
  badWords : Option (List (List TokenId))
  masked : TokenId → Bool
  embeds : Option (List Nat)

/-- A row of the allowed-token mask; no token is masked before the mask is allocated. -/
def maskRow (mask : Option (Nat → TokenId → Bool)) (i : Nat) (t : TokenId) : Bool :=
  match mask with
  | some m => m i t
  | none => false

namespace InputBatch

def view (b : InputBatch) (i : Nat) : RowView where
  output := b.reqOutputTokenIds.getD i none
  spec := b.specTokenIds.getD i []
  numTokensNoSpec := b.numTokensNoSpec i
  field f := if b.carries f then b.field f i else 0
  blocks := b.blockTable i
  generator := b.generators.get? i
  badWords := b.badWordsTokenIds.get? i
  masked := maskRow b.allowedTokenIdsMask i
  embeds := b.reqPromptEmbeds.get? i

end InputBatch

def CachedRequestState.row (c : BatchConfig) (request : CachedRequestState) (spec : List TokenId) : RowView where
  output := some request.outputTokenIds
  spec := spec
  numTokensNoSpec := request.numTokens
  field f := if c.carries f then (c.addedField request f).getD 0 else 0
  blocks := request.blockIds
  generator := request.samplingParams.bind fun _ => request.generator
  badWords := request.samplingParams.bind fun p => if p.badWordsTokenIds = [] then none else some p.badWordsTokenIds
  masked t := !request.allowed.isEmpty && !decide (t ∈ request.allowed)
  embeds := request.promptEmbeds

def CachedRequestState.tokens (request : CachedRequestState) (spec : List TokenId) : Nat → TokenId :=
  writeAt (addedTokens request fun _ => 0) request.numTokens spec

def CachedRequestState.isTokens (request : CachedRequestState) (spec : List TokenId) : Nat → Bool :=
  writeAt (addedIsTokens request fun _ => false) request.numTokens (List.replicate spec.length true)

namespace InputBatch
variable {α : Type} {j : Nat}

/-- Row `i` is that of `request` with these spec tokens. Prompt columns given by embeddings alone have
no token. -/
structure RowOf (b : InputBatch) (i : Nat) (request : CachedRequestState) (spec : List TokenId) : Prop where
  kind : request.samplingParams.isSome = !b.isPoolingModel
  view : b.view i = request.row b.toBatchConfig spec
  tokens : ∀ j < request.numTokens + spec.length, (request.promptTokenIds = none → request.numPromptTokens ≤ j) →
    b.tokenIds i j = request.tokens spec j
  isTokens : ∀ j < request.numTokens + spec.length, b.isTokenIds i j = request.isTokens spec j

variable {b b' : InputBatch} {i i' : Nat} {request : CachedRequestState} {spec t spec' : List TokenId}

/-- A row with the same view and the same tokens up to the active count is a row of the same request. -/
theorem RowOf.transfer (h : b.RowOf i request spec) (hc : b'.toBatchConfig = b.toBatchConfig)
    (hv : b'.view i' = b.view i)
    (ht : ∀ j < b.getActiveTokenCount i, b'.tokenIds i' j = b.tokenIds i j ∧ b'.isTokenIds i' j = b.isTokenIds i j) :
    b'.RowOf i' request spec := by
  have hn : b.getActiveTokenCount i = request.numTokens + spec.length := by
    have h1 := congrArg RowView.numTokensNoSpec h.view
    have h2 := congrArg RowView.spec h.view
    simp only [InputBatch.view, CachedRequestState.row] at h1 h2
    rw [getActiveTokenCount, h1, h2]
  rw [hn] at ht
  refine ⟨?_, ?_, fun j hj hp => (ht j hj).1.trans (h.tokens j hj hp), fun j hj => (ht j hj).2.trans (h.isTokens j hj)⟩
  · rw [hc]; exact h.kind
  · rw [hv, hc]; exact h.view

/-! ### What each operation does to the rows -/

theorem getD_set (l : List α) (i j : Nat) (x d : α) (hi : i < l.length) :
    (l.set i x).getD j d = if j = i then x else l.getD j d := by
  by_cases hj : j = i
  · simp [hj, hi]
  · simp [hj, Ne.symm hj]

theorem getD_set_ne (l : List α) {i : Nat} (x d : α) (hj : j ≠ i) : (l.set i x).getD j d = l.getD j d := by
  simp [Ne.symm hj]

theorem maskRow_update_ne (mask : Option (Nat → TokenId → Bool)) (r : (Nat → TokenId → Bool) → TokenId → Bool) {i : Nat}
    (hj : j ≠ i) : maskRow (mask.map fun m => update m i (r m)) j = maskRow mask j := by
  cases mask with
  | none => rfl
  | some m => funext t; simp [maskRow, hj]

theorem view_clearRow (hj : j ≠ i) : (b.clearRow i id).view j = b.view j := by
  ext1
  · exact getD_set_ne _ _ _ hj
  · exact getD_set_ne _ _ _ hj
  · rfl
  · funext f
    show (if b.carries f then (b.clearRow i id).field f j else 0) = _
    by_cases hf : f = .requestLoraMapping
    · subst hf; simp [clearRow, view, hj]
    · simp [clearRow, view, hf]
  · exact update_of_ne hj _ _
  · simp only [view, clearRow]; split <;> simp [hj]
  · simp only [view, clearRow]; split <;> simp [hj]
  · simp only [view, clearRow]
    split
    · rfl
    · exact maskRow_update_ne _ (fun _ _ => false) hj
  · rfl

theorem view_writeSpec (hj : j ≠ i) : (b.writeSpec i spec).view j = b.view j := by
  ext1
  · rfl
  · exact getD_set_ne _ _ _ hj
  all_goals rfl

theorem getD_concat_ne (l : List α) (x d : α) (hj : j ≠ l.length) : (l ++ [x]).getD j d = l.getD j d := by
  rcases Nat.lt_or_gt_of_ne hj with hlt | hgt
  · simp [getElem?_append_left hlt]
  · have hlen : (l ++ [x]).length ≤ j := by simp; omega
    simp [getElem?_eq_none (Nat.le_of_lt hgt), getElem?_eq_none hlen]

theorem getD_concat_default (l : List α) (d : α) (j : Nat) : (l ++ [d]).getD j d = l.getD j d := by
  by_cases hj : j = l.length
  · simp [hj]
  · exact getD_concat_ne l d d hj

theorem view_fillRow_ne (hj : j ≠ i) (hlen : b.reqOutputTokenIds.length = b.reqIds.length) :
    (b.fillRow i request).view j = b.view j := by
  ext1
  · simp only [view, fillRow]
    split
    · next he => exact getD_concat_ne _ _ _ (by omega)
    · exact getD_set_ne _ _ _ hj
  · simp only [view, fillRow]
    split
    · exact getD_concat_default _ _ _
    · exact getD_set_ne _ _ _ hj
  · exact update_of_ne hj _ _
  · funext f
    simp only [view, fillRow]
    cases b.addedField request f with
    | none => rfl
    | some v => simp only [update_of_ne hj]
  · exact update_of_ne hj _ _
  · simp only [view, fillRow]
    split <;> simp [hj]
  · simp only [view, fillRow]
    split
    · split <;> simp [hj]
    · rfl
  · funext t
    simp only [view, fillRow, addedMask]
    split
    · rfl
    · cases b.allowedTokenIdsMask <;> simp [maskRow, hj]
  · simp only [view, fillRow]
    simp [hj]

theorem addedField_isSome {c : BatchConfig} (hk : request.samplingParams.isSome = !c.isPoolingModel) {f : RowField}
    (hf : c.carries f = true) : ∃ v, c.addedField request f = some v := by
  cases f <;> simp_all [BatchConfig.carries, BatchConfig.addedField, Option.isSome_iff_exists]

/-- What a row without a request still holds does not show in the next one. -/
structure Blank (b : InputBatch) (i : Nat) : Prop where
  generator : b.generators.get? i = none
  badWords : b.badWordsTokenIds.get? i = none
  spec : b.specTokenIds.getD i [] = []

theorem Blank.of_view (h : b.Blank i) (hv : b'.view i' = b.view i) : b'.Blank i' :=
  ⟨(congrArg RowView.generator hv).trans h.generator, (congrArg RowView.badWords hv).trans h.badWords,
    (congrArg RowView.spec hv).trans h.spec⟩

theorem view_fillRow (hk : request.samplingParams.isSome = !b.isPoolingModel) (hi : i ≤ b.reqIds.length)
    (hlen : b.reqOutputTokenIds.length = b.reqIds.length) (hb : b.Blank i)
    (he : request.promptEmbeds = none → b.reqPromptEmbeds.get? i = none)
    (hm : request.allowed = [] → ∀ t, maskRow b.allowedTokenIdsMask i t = false) :
    (b.fillRow i request).view i = request.row b.toBatchConfig [] := by
  ext1
  · simp only [view, fillRow, CachedRequestState.row]
    split
    · next he => simp [he, ← hlen]
    · next he => rw [getD_set _ _ _ _ _ (by omega), if_pos rfl]
  · simp only [view, fillRow, CachedRequestState.row]
    split
    · rw [getD_concat_default]; exact hb.spec
    · next he =>
      by_cases hlt : i < b.specTokenIds.length
      · rw [getD_set _ _ _ _ _ hlt, if_pos rfl]
      · rw [set_eq_of_length_le (by omega)]; exact hb.spec
  · simp [view, fillRow, CachedRequestState.row]
  · funext f
    show (if b.carries f = true then (b.fillRow i request).field f i else 0)
      = if b.carries f = true then (b.addedField request f).getD 0 else 0
    split
    · next hf =>
      obtain ⟨v, hv⟩ := addedField_isSome hk hf
      simp [fillRow, hv]
    · rfl
  · simp [view, fillRow, CachedRequestState.row]
  · simp only [view, fillRow, CachedRequestState.row]
    cases request.samplingParams with
    | none => simpa using hb.generator
    | some p => simp [hb.generator]
  · simp only [view, fillRow, CachedRequestState.row]
    cases request.samplingParams with
    | none => simpa using hb.badWords
    | some p =>
      simp only [Option.bind_some]
      split
      · exact hb.badWords
      · simp
  · funext t
    simp only [view, fillRow, CachedRequestState.row, addedMask]
    split
    · next ha => rw [hm ha t]; simp [ha]
    · next ha => simp [maskRow, ha]
  · simp only [view, fillRow, CachedRequestState.row]
    cases hq : request.promptEmbeds with
    | none => simpa using he hq
    | some e => simp

def Pooled (b : InputBatch) : Prop := b.isPoolingModel = true →
  b.generators = Dict.empty ∧ b.badWordsTokenIds = Dict.empty ∧ b.allowedTokenIdsMask = none

theorem view_moveDown {empty : Nat} (hm : b.Moves last empty id) (hb : b.Blank empty)
    (hlen : b.reqOutputTokenIds.length = b.reqIds.length) (hspec : b.reqIds.length ≤ b.specTokenIds.length)
    (hp : b.Pooled) (he : b.reqPromptEmbeds.get? last = none → b.reqPromptEmbeds.get? empty = none) :
    (b.moveDown last empty id).view empty = b.view last := by
  have hne : empty ≠ last := Nat.ne_of_lt hm.lt
  have hlt := hm.hole_lt
  ext1
  · simp only [view, moveDown]
    rw [getD_set_ne _ _ _ hne, getD_set _ _ _ _ _ (by omega), if_pos rfl]
  · simp only [view, moveDown]
    rw [getD_set_ne _ _ _ hne, getD_set _ _ _ _ _ (by omega), if_pos rfl]
  · simp [view, moveDown]
  · funext f
    simp only [view, moveDown]
    split <;> simp
  · simp [view, moveDown, hne]
  · simp only [view, moveDown]
    split
    · next hpool => simp [(hp hpool).1]
    · simp [moveEntry, hne, hb.generator]
  · simp only [view, moveDown]
    split
    · next hpool => simp [(hp hpool).2.1]
    · simp [moveEntry, hne, hb.badWords]
  · funext t
    simp only [view, moveDown]
    split
    · next hpool => simp [(hp hpool).2.2, maskRow]
    · cases b.allowedTokenIdsMask <;> simp [maskRow]
  · simp only [view, moveDown]
    cases hg : b.reqPromptEmbeds.get? last <;> simp_all [moveEntry]

theorem view_moveDown_ne {empty : Nat} (h1 : j ≠ last) (h2 : j ≠ empty) :
    (b.moveDown last empty id).view j = b.view j := by
  ext1
  · simp only [view, moveDown]
    rw [getD_set_ne _ _ _ h1, getD_set_ne _ _ _ h2]
  · simp only [view, moveDown]
    rw [getD_set_ne _ _ _ h1, getD_set_ne _ _ _ h2]
  · simp [view, moveDown, h2]
  · funext f
    simp only [view, moveDown]
    split <;> simp [h2]
  · simp [view, moveDown, h1, h2]
  · simp only [view, moveDown]
    split
    · rfl
    · simp [moveEntry, h1, h2]
  · simp only [view, moveDown]
    split
    · rfl
    · simp [moveEntry, h1, h2]
  · simp only [view, moveDown]
    split
    · rfl
    · exact maskRow_update_ne _ (fun m => m last) h2
  · simp only [view, moveDown]
    simp [moveEntry, h1, h2]

theorem getD_swapList (l : List α) (j : Nat) (d : α) (h1 : i1 < l.length) (h2 : i2 < l.length) :
    (swapList l i1 i2).getD j d = l.getD (Equiv.swap i1 i2 j) d := by
  have hs : swapList l i1 i2 = (l.set i1 (l[i2])).set i2 (l[i1]) := by simp [swapList, h1, h2]
  rw [hs, getD_set _ _ _ _ _ (by simpa using h2), getD_set _ _ _ _ _ h1]
  by_cases hj2 : j = i2
  · simp [hj2, h1]
  · by_cases hj1 : j = i1
    · simp [hj1, hj1 ▸ hj2, h2]
    · simp [hj1, hj2, Equiv.swap_apply_of_ne_of_ne hj1 hj2]

theorem get?_swapDictValues (d : Dict Nat α) (i1 i2 j : Nat) :
    (swapDictValues d i1 i2).get? j = d.get? (Equiv.swap i1 i2 j) := by
  simp only [swapDictValues, get?_assign]
  by_cases hj1 : j = i1
  · simp [hj1]
  · by_cases hj2 : j = i2
    · simp [hj2, hj2 ▸ hj1]
    · simp [hj1, hj2, Equiv.swap_apply_of_ne_of_ne hj1 hj2]

theorem view_swapRows {old1 old2 : RequestId} (h1 : i1 < b.reqIds.length) (h2 : i2 < b.reqIds.length)
    (hlen : b.reqOutputTokenIds.length = b.reqIds.length) (hspec : b.reqIds.length ≤ b.specTokenIds.length)
    (hp : b.Pooled) (hm : ∀ m, b.allowedTokenIdsMask = some m → m i1 = m i2) (j : Nat) :
    (b.swapRows i1 i2 old1 old2 i1 i2).view j = b.view (Equiv.swap i1 i2 j) := by
  ext1
  · exact getD_swapList _ _ _ (by omega) (by omega)
  · exact getD_swapList _ _ _ (by omega) (by omega)
  · exact swapAt_eq _ _ _ _
  · funext f
    show (if b.carries f = true then (b.swapRows i1 i2 old1 old2 i1 i2).field f j else 0) = _
    simp only [swapRows, view]
    split
    · exact swapAt_eq _ _ _ _
    · rfl
  · exact swapAt_eq _ _ _ _
  · simp only [view, swapRows]
    split
    · next hpool => rw [(hp hpool).1]; rfl
    · exact get?_swapDictValues _ _ _ _
  · simp only [view, swapRows]
    split
    · next hpool => rw [(hp hpool).2.1]; rfl
    · exact get?_swapDictValues _ _ _ _
  · simp only [view, swapRows]
    split
    · next hpool => rw [(hp hpool).2.2]; rfl
    · cases hmask : b.allowedTokenIdsMask with
      | none => rfl
      | some m =>
        have he := hm m hmask
        have hs : swapMask m i1 i2 = m := by simp [swapMask, ← he]
        funext t
        simp only [Option.map_some, maskRow, hs]
        by_cases hj1 : j = i1
        · simp [hj1, he]
        · by_cases hj2 : j = i2
          · simp [hj2, he]
          · rw [Equiv.swap_apply_of_ne_of_ne hj1 hj2]
  · exact get?_swapDictValues _ _ _ _

theorem view_cut (hj : j < n) : (b.cut n).view j = b.view j := by
  ext1
  · simp [view, cut, hj]
  · simp [view, cut, hj]
  all_goals rfl

/-! ### Tokens -/

theorem writeAt_congr {r1 r2 : Nat → α} {start : Nat} {l : List α} (hj : j < start + l.length)
    (h : j < start → r1 j = r2 j) : writeAt r1 start l j = writeAt r2 start l j := by
  unfold writeAt
  split
  · next hs =>
    have hlt : j - start < l.length := by omega
    simp [hlt]
  · next hs => exact h (by omega)

theorem numPromptTokens_eq (h : request.promptTokenIds = some t) : request.numPromptTokens = t.length := by
  have hok := request.prompt_ok
  cases he : request.promptEmbeds with
  | none =>
    rw [h, he] at hok
    exact (Except.ok.inj hok).symm
  | some e =>
    rw [h, he] at hok
    simp only [lengthFromPromptTokenIdsOrEmbeds] at hok
    split at hok
    · cases hok
    · exact (Except.ok.inj hok).symm

theorem addedTokens_congr {r1 r2 : Nat → TokenId} (hj : j < request.numTokens)
    (hp : request.promptTokenIds = none → request.numPromptTokens ≤ j) :
    addedTokens request r1 j = addedTokens request r2 j := by
  refine writeAt_congr hj fun hlt => ?_
  cases ht : request.promptTokenIds with
  | none =>
    have := hp ht
    omega
  | some t =>
    have := numPromptTokens_eq ht
    exact writeAt_congr (by simp; omega) fun h0 => absurd h0 (by omega)

theorem addedIsTokens_congr {r1 r2 : Nat → Bool} (hj : j < request.numTokens) :
    addedIsTokens request r1 j = addedIsTokens request r2 j := by
  refine writeAt_congr (by simpa [CachedRequestState.numTokens] using hj) fun hlt =>
    writeAt_congr ?_ fun h0 => absurd h0 (by omega)
  cases request.promptTokenIds with
  | none => simpa using hlt
  | some t =>
    cases hm : request.promptIsTokenIds with
    | none => simpa using hlt
    | some l =>
      have := request.mask_ok l hm
      simp
      omega

theorem writeAt_nil (r : Nat → α) (start j : Nat) : writeAt r start [] j = r j := by
  unfold writeAt
  split <;> rfl

theorem rowOf_fillRow (hk : request.samplingParams.isSome = !b.isPoolingModel)
    (hv : (b.fillRow i request).view i = request.row b.toBatchConfig []) :
    (b.fillRow i request).RowOf i request [] := by
  refine ⟨hk, hv, fun j hj hp => ?_, fun j hj => ?_⟩
  · simp only [fillRow, update_self, CachedRequestState.tokens, writeAt_nil]
    exact addedTokens_congr (by simpa using hj) hp
  · simp only [fillRow, update_self, CachedRequestState.isTokens, length_nil, replicate_zero,
      writeAt_nil]
    exact addedIsTokens_congr (by simpa using hj)

theorem rowOf_writeSpec (h : b.RowOf i request spec) (hi : i < b.specTokenIds.length) :
    (b.writeSpec i spec').RowOf i request spec' := by
  have hn : b.numTokensNoSpec i = request.numTokens := congrArg RowView.numTokensNoSpec h.view
  refine ⟨h.kind, ?_, fun j hj hp => ?_, fun j hj => ?_⟩
  · have hs : (b.writeSpec i spec').view i = { b.view i with spec := spec' } := by
      simp [view, writeSpec, hi]
      rfl
    rw [hs, h.view]
    rfl
  · simp only [writeSpec, update_self, hn, CachedRequestState.tokens]
    refine writeAt_congr hj fun hlt => (h.tokens j (by omega) hp).trans ?_
    simp only [CachedRequestState.tokens, writeAt]
    rw [if_neg (by omega)]
  · simp only [writeSpec, update_self, hn, CachedRequestState.isTokens]
    refine writeAt_congr (by simpa using hj) fun hlt => (h.isTokens j (by omega)).trans ?_
    simp only [CachedRequestState.isTokens, writeAt]
    rw [if_neg (by omega)]

end InputBatch

/-! ### The batch as a map of its requests -/

abbrev Live := RequestId → Option (CachedRequestState × List TokenId)

def Live.onOp (_ : InputBatch) (op : Op) (live : Live) : Live :=
  match op with
  | .remove reqId => update live reqId none
  | .add request => update live request.reqId (some (request, []))
  | .updateSpec reqId specTokenIds => update live reqId ((live reqId).map fun e => (e.1, specTokenIds))
  | _ => live

structure Faithful (live : Live) (b : InputBatch) : Prop where
  outputs : b.reqOutputTokenIds.length = b.reqIds.length
  specs : b.reqIds.length ≤ b.specTokenIds.length
  pooled : b.Pooled
  blank : ∀ i, b.rowId i = none → b.Blank i
  present : ∀ id e, live id = some e → ∃ i, b.rowId i = some id
  rows : ∀ i id, b.rowId i = some id → ∃ e, live id = some e ∧ b.RowOf i e.1 e.2

/-- The calls that meet no leftover: a request without embeddings gets a row without an embeddings
entry and one without allowed tokens a row that masks nothing, `condense` does not put a request without
embeddings into a row with an entry, and swapped rows have the same mask. -/
def Op.Clean (b : InputBatch) : Op → Prop
  | .add request => (request.promptEmbeds = none → b.reqPromptEmbeds.get? b.nextRow = none) ∧
    (request.allowed = [] → ∀ t, maskRow b.allowedTokenIdsMask b.nextRow t = false)
  | .condense => ∀ i ∈ b.builder.removed, i < b.numReqs → b.reqPromptEmbeds.get? i ≠ none →
    ∀ j, b.numReqs ≤ j → b.rowId j ≠ none → b.reqPromptEmbeds.get? j ≠ none
  | .swap i1 i2 => ∀ m, b.allowedTokenIdsMask = some m → m i1 = m i2
  | _ => True

namespace Faithful

variable {live : Live} {b b' : InputBatch} (h : Faithful live b)
include h

theorem clear {i : Nat} (hb : b.Inverse) (hid : b.rowId i = some id) :
    Faithful (update live id none) ({ b with builder := u }.clearRow i id) := by
  have hlt := lt_of_rowId hid
  have hrow : ({ b with builder := u }.clearRow i id).rowId = update b.rowId i none := rowId_clearRow hlt
  have hother : ∀ {j id'}, update b.rowId i none j = some id' → j ≠ i ∧ b.rowId j = some id' ∧ id' ≠ id := by
    intro j id' hj
    rw [update_apply] at hj
    split at hj
    · cases hj
    · next hji => exact ⟨hji, hj, fun he => hji (Inverts.injective hb (he ▸ hj) hid)⟩
  refine ⟨by simpa [clearRow] using h.outputs, by simpa [clearRow] using h.specs, fun hp => ?_, fun j hj => ?_,
    fun id' e he => ?_, fun j id' hj => ?_⟩
  · have hp' : b.isPoolingModel = true := hp
    simp only [clearRow, hp', if_true]
    exact h.pooled hp'
  · rw [hrow] at hj
    by_cases hji : j = i
    · subst hji
      refine ⟨?_, ?_, by simp [clearRow, Nat.lt_of_lt_of_le hlt h.specs]⟩
      · simp only [clearRow]
        split
        · next hp => rw [(h.pooled hp).1]; rfl
        · simp
      · simp only [clearRow]
        split
        · next hp => rw [(h.pooled hp).2.1]; rfl
        · simp
    · exact (h.blank j (by rwa [update_of_ne hji] at hj)).of_view (view_clearRow hji)
  · rw [update_apply] at he
    split at he
    · cases he
    · next hne =>
      obtain ⟨j, hj⟩ := h.present id' e he
      refine ⟨j, ?_⟩
      rw [hrow, update_of_ne fun he => hne (Option.some.inj ((he ▸ hj).symm.trans hid))]
      exact hj
  · rw [hrow] at hj
    obtain ⟨hji, hj, hne⟩ := hother hj
    obtain ⟨e, he, hR⟩ := h.rows j id' hj
    exact ⟨e, by rwa [update_of_ne hne], hR.transfer rfl (view_clearRow hji) fun _ _ => ⟨rfl, rfl⟩⟩

theorem fill {request : CachedRequestState} (hb : b.Inverse) (hempty : b.rowId b.nextRow = none)
    (hle : b.nextRow ≤ b.reqIds.length) (hop : (Op.add request).Promised b) (hc : (Op.add request).Clean b) :
    Faithful (update live request.reqId (some (request, []))) ({ b with builder := u }.fillRow b.nextRow request) := by
  have hrow : ({ b with builder := u }.fillRow b.nextRow request).rowId
      = update b.rowId b.nextRow (some request.reqId) := rowId_fillRow request hle
  have hB := h.blank _ hempty
  have hview : ∀ j, j ≠ b.nextRow → ({ b with builder := u }.fillRow b.nextRow request).view j = b.view j :=
    fun j hj => view_fillRow_ne (b := { b with builder := u }) hj h.outputs
  have hown : ({ b with builder := u }.fillRow b.nextRow request).view b.nextRow = request.row b.toBatchConfig [] :=
    view_fillRow (b := { b with builder := u }) hop.2 hle h.outputs ⟨hB.generator, hB.badWords, hB.spec⟩ hc.1 hc.2
  have hnot : ∀ j, b.rowId j ≠ some request.reqId := fun j hj => by
    have hg := hop.1
    rw [(hb _ j).mpr hj] at hg
    cases hg
  refine ⟨?_, ?_, fun hp => ?_, fun j hj => ?_, fun id' e he => ?_, fun j id' hj => ?_⟩
  · have := h.outputs
    simp only [fillRow]
    split <;> simp [this]
  · have := h.specs
    simp only [fillRow]
    split <;> simp <;> omega
  · have hp' : b.isPoolingModel = true := hp
    have hs : request.samplingParams = none := by simpa [hp'] using hop.2
    have ha : request.allowed = [] := by simp [CachedRequestState.allowed, hs]
    simpa [fillRow, addedMask, hs, ha] using h.pooled hp'
  · rw [hrow, update_apply] at hj
    split at hj
    · cases hj
    · next hne => exact (h.blank j hj).of_view (hview j hne)
  · rw [hrow]
    rw [update_apply] at he
    split at he
    · next hid => exact ⟨b.nextRow, by simp [hid]⟩
    · obtain ⟨j, hj⟩ := h.present id' e he
      refine ⟨j, ?_⟩
      rw [update_of_ne fun he => by rw [he, hempty] at hj; cases hj]
      exact hj
  · rw [hrow, update_apply] at hj
    split at hj
    · next hje =>
      cases hj
      subst hje
      exact ⟨(request, []), update_self .., rowOf_fillRow hop.2 hown⟩
    · next hne =>
      obtain ⟨e, he, hR⟩ := h.rows j id' hj
      refine ⟨e, ?_, hR.transfer rfl (hview j hne) fun _ _ =>
        ⟨congrFun (update_of_ne hne _ _) _, congrFun (update_of_ne hne _ _) _⟩⟩
      rwa [update_of_ne]
      rintro rfl
      exact hnot j hj

theorem move {empty : Nat} (hg : b.Gapped last) (hm : b.Moves last empty id)
    (he : b.reqPromptEmbeds.get? last = none → b.reqPromptEmbeds.get? empty = none) :
    Faithful live (b.moveDown last empty id) := by
  have hne : empty ≠ last := Nat.ne_of_lt hm.lt
  have hempty := (hg.hole empty hm.hole_lt).mpr (.inl hm.hole)
  have hlast := lt_of_rowId hm.source
  refine ⟨by simpa [moveDown] using h.outputs, by simpa [moveDown] using h.specs, fun hp => ?_, fun j hj => ?_,
    fun id' e he => ?_, fun j id' hj => ?_⟩
  · have hp' : b.isPoolingModel = true := hp
    simp only [moveDown, hp', if_true]
    exact h.pooled hp'
  · rw [hm.rowId, update_apply] at hj
    split at hj
    · next hjl =>
      subst hjl
      refine ⟨?_, ?_, by simp [moveDown, Nat.lt_of_lt_of_le hlast h.specs]⟩
      · simp only [moveDown]
        split
        · next hp => rw [(h.pooled hp).1]; rfl
        · simp [moveEntry, Ne.symm hne]
      · simp only [moveDown]
        split
        · next hp => rw [(h.pooled hp).2.1]; rfl
        · simp [moveEntry, Ne.symm hne]
    · next hjl =>
      rw [update_apply] at hj
      split at hj
      · cases hj
      · next hje => exact (h.blank j hj).of_view (view_moveDown_ne hjl hje)
  · obtain ⟨j, hj⟩ := h.present id' e he
    rw [hm.rowId]
    by_cases hjl : j = last
    · subst hjl
      exact ⟨empty, by rw [update_of_ne hne, update_self, ← hm.source, hj]⟩
    · refine ⟨j, ?_⟩
      rw [update_of_ne hjl, update_of_ne fun he => by rw [he, hempty] at hj; cases hj]
      exact hj
  · rw [hm.rowId, update_apply] at hj
    split at hj
    · cases hj
    · next hjl =>
      rw [update_apply] at hj
      split at hj
      · next hje =>
        cases hj
        subst hje
        obtain ⟨e, he', hR⟩ := h.rows last id hm.source
        refine ⟨e, he', hR.transfer rfl (view_moveDown hm (h.blank j hempty) h.outputs h.specs h.pooled he)
          fun k hk => ?_⟩
        simp [moveDown, copyFirst, hk]
      · next hje =>
        obtain ⟨e, he', hR⟩ := h.rows j id' hj
        exact ⟨e, he', hR.transfer rfl (view_moveDown_ne hjl hje) fun _ _ =>
          ⟨congrFun (update_of_ne hje _ _) _, congrFun (update_of_ne hje _ _) _⟩⟩

theorem cut (hrow : (b.cut n).rowId = b.rowId) : Faithful live (b.cut n) := by
  have hout := h.outputs
  have hspecs := h.specs
  have hlt : ∀ j id, b.rowId j = some id → j < n := by
    intro j id hj
    rw [← hrow] at hj
    have := lt_of_rowId hj
    simp only [InputBatch.cut, length_take] at this
    omega
  refine ⟨by simp [InputBatch.cut, hout], by simp [InputBatch.cut]; omega, h.pooled, fun j hj => ?_,
    fun id e he => by rw [hrow]; exact h.present id e he, fun j id hj => ?_⟩
  · have hB := h.blank j (hrow ▸ hj)
    refine ⟨hB.generator, hB.badWords, ?_⟩
    have hs := hB.spec
    simp only [InputBatch.cut, getD_eq_getElem?_getD, getElem?_take] at hs ⊢
    split
    · exact hs
    · rfl
  · rw [hrow] at hj
    obtain ⟨e, he, hR⟩ := h.rows j id hj
    exact ⟨e, he, hR.transfer rfl (view_cut (hlt j id hj)) fun _ _ => ⟨rfl, rfl⟩⟩

theorem swap {old1 old2 : RequestId} (h1 : b.rowId i1 = some old1) (h2 : b.rowId i2 = some old2)
    (hm : ∀ m, b.allowedTokenIdsMask = some m → m i1 = m i2) : Faithful live (b.swapRows i1 i2 old1 old2 i1 i2) := by
  have hl1 := lt_of_rowId h1
  have hl2 := lt_of_rowId h2
  have hrow : (b.swapRows i1 i2 old1 old2 i1 i2).rowId = fun j => b.rowId (Equiv.swap i1 i2 j) := by
    rw [rowId_swapRows hl1 hl2]
    funext j
    exact swapAt_eq _ _ _ _
  have hview : ∀ j, (b.swapRows i1 i2 old1 old2 i1 i2).view j = b.view (Equiv.swap i1 i2 j) :=
    view_swapRows hl1 hl2 h.outputs h.specs h.pooled hm
  have hlen : ∀ {α : Type} (l : List α), (swapList l i1 i2).length = l.length := by
    intro α l
    unfold swapList
    split <;> simp
  refine ⟨by simpa [swapRows, hlen] using h.outputs, by simpa [swapRows, hlen] using h.specs, fun hp => ?_,
    fun j hj => ?_, fun id e he => ?_, fun j id hj => ?_⟩
  · have hp' : b.isPoolingModel = true := hp
    simp only [swapRows, hp', if_true]
    exact h.pooled hp'
  · rw [hrow] at hj
    exact (h.blank _ hj).of_view (hview j)
  · obtain ⟨j, hj⟩ := h.present id e he
    exact ⟨Equiv.swap i1 i2 j, by rw [hrow]; simpa using hj⟩
  · rw [hrow] at hj
    obtain ⟨e, he, hR⟩ := h.rows _ id hj
    refine ⟨e, he, hR.transfer rfl (hview j) fun k hk => ?_⟩
    by_cases hj2 : j = i2
    · subst hj2
      rw [Equiv.swap_apply_right] at hk ⊢
      simp only [swapRows, update_self, copyFirst]
      rw [if_pos (by omega), if_pos (by omega)]
      exact ⟨rfl, rfl⟩
    · by_cases hj1 : j = i1
      · subst hj1
        rw [Equiv.swap_apply_left] at hk ⊢
        simp only [swapRows, update_of_ne hj2, update_self, copyFirst]
        rw [if_pos (by omega), if_pos (by omega)]
        exact ⟨rfl, rfl⟩
      · rw [Equiv.swap_apply_of_ne_of_ne hj1 hj2]
        simp [swapRows, hj1, hj2]

theorem writeSpec {i : Nat} {spec : List TokenId} (hb : b.Inverse) (hid : b.rowId i = some id) :
    Faithful (update live id ((live id).map fun e => (e.1, spec))) (b.writeSpec i spec) := by
  have hi := Nat.lt_of_lt_of_le (lt_of_rowId hid) h.specs
  refine ⟨h.outputs, by simpa [InputBatch.writeSpec] using h.specs, h.pooled, fun j hj => ?_, fun id' e he => ?_,
    fun j id' hj => ?_⟩
  · have hji : j ≠ i := by
      rintro rfl
      cases hid.symm.trans hj
    exact (h.blank j hj).of_view (view_writeSpec hji)
  · rw [update_apply] at he
    split at he
    · next hne => exact ⟨i, hne ▸ hid⟩
    · exact h.present id' e he
  · obtain ⟨e, he, hR⟩ := h.rows j id' hj
    by_cases hji : j = i
    · subst hji
      cases hid.symm.trans hj
      exact ⟨(e.1, spec), by simp [he], rowOf_writeSpec hR hi⟩
    · have hne : id' ≠ id := fun he' => hji (Inverts.injective hb (he' ▸ hj) hid)
      refine ⟨e, by rwa [update_of_ne hne], hR.transfer rfl (view_writeSpec hji) fun _ _ =>
        ⟨congrFun (update_of_ne hji _ _) _, congrFun (update_of_ne hji _ _) _⟩⟩

theorem builder (u : BatchUpdateBuilder) : Faithful live { b with builder := u } := by
  refine ⟨h.outputs, h.specs, h.pooled, fun i hi => (h.blank i hi).of_view rfl, h.present, fun i id hi => ?_⟩
  obtain ⟨e, he, hR⟩ := h.rows i id hi
  exact ⟨e, he, hR.transfer rfl rfl fun _ _ => ⟨rfl, rfl⟩⟩

theorem step {p p' : Phase} {op : Op} (hS : Shape p b) (hnext : op.next p = some p') (hop : op.Promised b)
    (hc : op.Clean b) (hrun : b.step op = .ok b') : Faithful (live.onOp b op) b' := by
  cases op with
  | remove id =>
    obtain ⟨hq, -⟩ := Op.phases hnext
    have hI := hS.indexed hq
    obtain ⟨hn, rfl⟩ | ⟨i, hi, -, rfl⟩ := removeRequest_cases hrun
    · have hl : live id = none := by
        by_contra hne
        obtain ⟨e, he⟩ := Option.ne_none_iff_exists'.mp hne
        obtain ⟨i, hi⟩ := h.present id e he
        rw [(hI.inverse id i).mpr hi] at hn
        cases hn
      rw [Live.onOp, ← hl, update_eq_self]
      exact h
    · exact h.clear hI.inverse ((hI.inverse id i).mp hi)
  | add request =>
    obtain ⟨hq, -⟩ := Op.phases hnext
    obtain ⟨-, rfl⟩ := addRequest_cases hrun
    have hf := (hS.indexed hq).fresh
    exact h.fill (hS.indexed hq).inverse hf.empty hf.le hop hc
  | updateSpec id spec =>
    obtain ⟨hq, -⟩ := Op.phases hnext
    obtain ⟨i, hi, h2⟩ := bind_eq_ok.mp hrun
    cases h2
    have hb := (hS.indexed hq).inverse
    exact h.writeSpec hb ((hb id i).mp (indexOf_eq_ok hi))
  | condense =>
    obtain ⟨hq, -⟩ := Op.phases hnext
    refine (condense_inv (P := fun b => Faithful live b ∧ Op.condense.Clean b) (hS.indexed hq) hrun ⟨h, hc⟩
      ?_ ?_ ?_).1.1
    · exact fun l hl hP => ⟨hP.1.builder _, fun i hi => hP.2 i (hl.mem_iff.mp hi)⟩
    · rintro b last empty id hg hm ⟨hF, hc⟩
      have hsrc : b.rowId last ≠ none := by simp [hm.source]
      refine ⟨hF.move hg hm fun hn => ?_, fun i hi hlt hs j hj hr => ?_⟩
      · by_contra he
        exact hc empty hm.hole hm.below he last hm.above hsrc hn
      · obtain ⟨hi, hie⟩ := (hm.left i).mp hi
        rw [hm.numReqs hg.inverse] at hlt hj
        have hle := hm.below
        have hil := hm.above
        rw [hm.rowId, update_apply] at hr
        split at hr
        · exact absurd rfl hr
        · next hjl =>
          rw [update_of_ne (by omega)] at hr
          have hkeep : ∀ k, k ≠ last → k ≠ empty →
              (b.moveDown last empty id).reqPromptEmbeds.get? k = b.reqPromptEmbeds.get? k := fun k h1 h2 =>
            congrArg RowView.embeds (view_moveDown_ne h1 h2)
          rw [hkeep i (by omega) hie] at hs
          rw [hkeep j hjl (by omega)]
          exact hc i hi hlt hs j hj hr
    · exact fun b n hrow hP => ⟨hP.1.cut hrow, fun i hi hlt hs j hj hr => hP.2 i hi hlt hs j hj (hrow ▸ hr)⟩
  | swap i1 i2 =>
    obtain ⟨hq, -⟩ := Op.phases hnext
    obtain ⟨old1, old2, h1, h2, rfl⟩ := swapStates_cases (hS.dense hq).inverse hrun
    exact h.swap h1 h2 hc
  | refresh =>
    cases hrun
    exact h.builder _
  | sample k =>
    cases hrun
    exact h

omit h in
theorem empty (config : BatchConfig) : Faithful (fun _ => none) { config with } := by
  refine ⟨rfl, Nat.zero_le _, fun _ => ⟨rfl, rfl, rfl⟩, fun i _ => ⟨rfl, rfl, ?_⟩, fun _ _ he => (by cases he),
    fun i id hi => (by simp [rowId] at hi)⟩
  simp only [getD_eq_getElem?_getD, getElem?_replicate]
  split <;> rfl

omit h in
/-- After every sequence of steps whose calls are clean the batch is a faithful map of its live requests:
the rows below `num_reqs` are those of the live requests, `req_id_to_index` inverts them, and every
field of a row is what the row's own request put there. -/
theorem batch_faithful (config : BatchConfig) (steps : List WorkerStep) {live : Live} {b : InputBatch}
    (hrun : runWith Live.onOp (steps.flatMap WorkerStep.ops) (fun _ => none, { config with }) = .ok (live, b))
    (hal : Along Live.onOp (fun _ b op => op.Promised b ∧ op.Clean b) (steps.flatMap WorkerStep.ops)
      (fun _ => none, { config with })) : b.reqIds.length = b.numReqs ∧
    (∀ id i, b.reqIdToIndex.get? id = some i ↔ b.reqIds[i]? = some (some id)) ∧
    (∀ i < b.numReqs, ∃ id e, b.reqIds[i]? = some (some id) ∧ live id = some e ∧ b.RowOf i e.1 e.2) ∧
    (∀ id e, live id = some e → ∃ i < b.numReqs, b.reqIds[i]? = some (some id)) := by
  obtain ⟨hS, hF⟩ := runWith_inv (P := Faithful) (fun _ _ _ h => h.1)
    (fun p p' g b b' op hS hn hC hr hF => hF.step hS hn hC.1 hC.2 hr) (phases_steps steps)
    ⟨Shape.empty config, Faithful.empty config⟩ hrun hal
  have hI := hS.indexed (by simp)
  have hlen := hI.count
  rw [hS.idle rfl, length_nil, Nat.add_zero] at hlen
  refine ⟨hlen.symm, fun id i => ?_, fun i hi => ?_, fun id e he => ?_⟩
  · rw [hI.inverse id i]
    exact ⟨getElem?_of_rowId, fun h => by simp [rowId, h]⟩
  · obtain ⟨id, hid⟩ := (hS.rowId_iff i).mp hi
    obtain ⟨e, he, hR⟩ := hF.rows i id hid
    exact ⟨id, e, getElem?_of_rowId hid, he, hR⟩
  · obtain ⟨i, hi⟩ := hF.present id e he
    exact ⟨i, (hS.rowId_iff i).mpr ⟨id, hi⟩, getElem?_of_rowId hi⟩

/-! Requests with one prompt token, perhaps given as an embedding or with allowed tokens. -/

def plain (reqId : RequestId) (allowedTokenIds : List TokenId) : CachedRequestState :=
  oneToken reqId { allowedTokenIds }

def embedded (reqId : RequestId) : CachedRequestState :=
  { oneToken reqId {} with promptTokenIds := none, promptEmbeds := some [4], prompt_ok := rfl }

/-- The first of three requests leaves, and the last moves down into its row. -/
def oneLeaves : List WorkerStep :=
  [{ edits := [.inl (plain 0 [2]), .inl (plain 1 [3]), .inl (plain 2 [])] }, { removals := [0] }]

omit h in
theorem batch_faithful_reused : ∃ (live : Live) (b : InputBatch),
      runWith Live.onOp (oneLeaves.flatMap WorkerStep.ops) (fun _ => none, { maxNumReqs := 3, vocabSize := 9 }) =
        .ok (live, b) ∧ b.numReqs = 2 ∧ b.reqIds = [some 2, some 1] ∧
      ∀ i < 2, ∃ id e, b.reqIds[i]? = some (some id) ∧ live id = some e ∧ b.RowOf i e.1 e.2 := by
  have hal : Along Live.onOp (fun _ b op => op.Promised b ∧ op.Clean b) (oneLeaves.flatMap WorkerStep.ops)
      (fun _ => none, { maxNumReqs := 3, vocabSize := 9 }) := by
    refine .cons rfl ⟨⟨rfl, rfl⟩, fun _ => rfl, nofun⟩ (.cons rfl ⟨⟨rfl, rfl⟩, fun _ => rfl, nofun⟩
      (.cons rfl ⟨⟨rfl, rfl⟩, fun _ => rfl, fun _ _ => rfl⟩ (.cons rfl ⟨trivial, nofun⟩ (.cons rfl ⟨trivial, trivial⟩
        (.cons rfl ⟨trivial, trivial⟩ (.cons rfl ⟨trivial, trivial⟩ (.cons rfl ⟨trivial, ?_⟩
          (.cons rfl ⟨trivial, trivial⟩
          (.cons rfl ⟨trivial, trivial⟩ trivial)))))))))
    exact fun i _ _ he => absurd rfl he
  exact ⟨_, _, rfl, rfl, rfl, (batch_faithful { maxNumReqs := 3, vocabSize := 9 } oneLeaves rfl hal).2.2.1⟩

omit h in
/-- Leftovers that show: an embeddings entry, the mask of a row that `condense` moved away, and the mask
of a swapped row. -/
theorem leftovers_show : (∃ (live : Live) (b : InputBatch),
      runWith Live.onOp ([{ edits := [.inl (embedded 0)] }, { removals := [0], edits := [.inl (plain 1 [])] }].flatMap
        WorkerStep.ops) (fun _ => none, { maxNumReqs := 2, vocabSize := 9 }) = .ok (live, b) ∧
      b.reqIds = [some 1] ∧ live 1 = some (plain 1 [], []) ∧ b.reqPromptEmbeds.get? 0 = some [4]) ∧
    (∃ (live : Live) (b : InputBatch),
      runWith Live.onOp ([{ edits := [.inl (plain 0 []), .inl (plain 1 [2])] }, { removals := [0] },
        { edits := [.inl (plain 2 [])] }].flatMap WorkerStep.ops)
        (fun _ => none, { maxNumReqs := 2, vocabSize := 9 }) = .ok (live, b) ∧
      b.reqIds = [some 1, some 2] ∧ live 2 = some (plain 2 [], []) ∧ maskRow b.allowedTokenIdsMask 1 3 = true) ∧
    ∃ (live : Live) (b : InputBatch),
      runWith Live.onOp ([{ edits := [.inl (plain 0 [2]), .inl (plain 1 [3])], swaps := [(0, 1)] }].flatMap
        WorkerStep.ops) (fun _ => none, { maxNumReqs := 2, vocabSize := 9 }) = .ok (live, b) ∧
      b.reqIds = [some 1, some 0] ∧ live 0 = some (plain 0 [2], []) ∧ maskRow b.allowedTokenIdsMask 1 2 = true :=
  ⟨⟨_, _, rfl, rfl, rfl, rfl⟩, ⟨_, _, rfl, rfl, rfl, rfl⟩, _, _, rfl, rfl, rfl, rfl⟩

end Faithful
end VllmCore.Worker
