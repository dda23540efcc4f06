import VllmCore.Core.Hashing

/-! # Streaming-input sessions

A resumable request is continued by `Scheduler._update_request_as_session`: the tokens that are not
computed yet are deleted, the new prompt tokens appended, and the hasher is called on the result. The
block hashes are only ever extended. A hash that covers a deleted token therefore survives, and stays
right only if the new tokens repeat the deleted ones: `SessionOp.KeepsHashed`. -/

namespace VllmCore
open List BlockHasher
variable {η : Type}

namespace Request

/-- Move the features of an update behind the tokens the session keeps. -/
def shiftFeature (base : Nat) (f : MultiModalFeatureSpec) : MultiModalFeatureSpec :=
  { f with mmPosition := { f.mmPosition with offset := f.mmPosition.offset + base } }

/-- The session as the hasher sees it: uncomputed tokens dropped, the update's tokens and features in
place. -/
def withUpdate (session : Request η) (prompt : List TokenId) (u : StreamingUpdate) : Request η :=
  let all := session.allTokenIds.take session.numComputedTokens
  let kept := all.drop session.numPromptTokens
  let tokens := u.promptTokenIds.getD []
  { session with
    allTokenIds := all ++ tokens
    outputTokenIds := []
    promptTokenIds := some (prompt ++ kept ++ tokens)
    mmFeatures := session.mmFeatures ++ u.mmFeatures.map (shiftFeature all.length) }

/-- `Scheduler._update_request_as_session`, the part that changes the request. -/
def updateAsSession (session : Request η) (u : StreamingUpdate) : Except Err (Request η) :=
  match session.promptTokenIds with
  | none => .error (.assertionError "session.prompt_token_ids is not None")
  | some prompt =>
    let s := (session.withUpdate prompt u).updateBlockHashes
    .ok { s with
      numPromptTokens := (s.promptTokenIds.getD []).length
      arrivalTime := u.arrivalTime
      samplingParams := u.samplingParams
      status := .waiting }

end Request

/-- What happens to a session: sampled tokens are appended, or the next chunk of input arrives when
some number of tokens is computed. -/
inductive SessionOp where
  | append (tokenIds : List TokenId)
  | update (numComputedTokens : Nat) (u : StreamingUpdate)

def SessionOp.apply (r : Request η) : SessionOp → Except Err (Request η)
  | append tokenIds => .ok (r.appendOutputTokenIds tokenIds)
  | update n u => { r with numComputedTokens := n }.updateAsSession u

/-- Every step of the run, by `op` from `r` to `r'`, satisfies `K r op r'`. A raised assertion ends the
run. -/
def EveryStep (K : Request η → SessionOp → Request η → Prop) : Request η → List SessionOp → Prop
  | _, [] => True
  | r, op :: ops => ∀ r', op.apply r = .ok r' → K r op r' ∧ EveryStep K r' ops

theorem EveryStep.imp {K K' : Request η → SessionOp → Request η → Prop} {I : Request η → Prop}
    (hstep : ∀ op r r', I r → SessionOp.apply r op = .ok r' → K r op r' → K' r op r' ∧ I r')
    {r : Request η} {ops : List SessionOp} (hr : I r) (h : EveryStep K r ops) : EveryStep K' r ops := by
  induction ops generalizing r with
  | nil => trivial
  | cons op ops ih =>
    intro r' hr'
    obtain ⟨hk, hrest⟩ := h r' hr'
    obtain ⟨hk', hI⟩ := hstep op r r' hr hr' hk
    exact ⟨hk', ih hI hrest⟩

namespace SessionOp

def tokensAfter (r : Request η) : SessionOp → List TokenId
  | append tokenIds => r.allTokenIds ++ tokenIds
  | update n u => r.allTokenIds.take n ++ u.promptTokenIds.getD []

def featuresAdded (r : Request η) : SessionOp → List MultiModalFeatureSpec
  | append _ => []
  | update n u => u.mmFeatures.map (Request.shiftFeature (r.allTokenIds.take n).length)

/-- The operation changes no token that a hash covers: what an update deletes below the last hashed
boundary, its own tokens put back. -/
def KeepsHashed (h : BlockHasher η) (r : Request η) (op : SessionOp) : Prop :=
  (op.tokensAfter r).take (r.blockHashes.length * h.hashBlockSize) =
    r.allTokenIds.take (r.blockHashes.length * h.hashBlockSize)

instance (h : BlockHasher η) (r : Request η) (op : SessionOp) : Decidable (op.KeepsHashed h r) :=
  inferInstanceAs (Decidable (_ = _))

/-- The features stay in order, the operation adds none to a block that is hashed already, and the call
of the hasher sees the features of the blocks it hashes. -/
structure KeepsKeys (h : BlockHasher η) (r : Request η) (op : SessionOp) : Prop where
  nonOverlapping : NonOverlapping (r.mmFeatures ++ op.featuresAdded r)
  added : ∀ f ∈ op.featuresAdded r, ∀ i < r.blockHashes.length,
    f.overlaps (i * h.hashBlockSize) ((i + 1) * h.hashBlockSize) = false
  seen : r.blockHashes ≠ [] → ∀ i, r.blockHashes.length ≤ i →
    (i + 1) * h.hashBlockSize ≤ (op.tokensAfter r).length →
    ∀ f ∈ (r.mmFeatures ++ op.featuresAdded r).dropLast,
      f.overlaps (i * h.hashBlockSize) ((i + 1) * h.hashBlockSize) = false

end SessionOp

namespace Request
variable {h : BlockHasher η} {r r' q : Request η}

/-- One hash for each full block, chained over exactly the current tokens. -/
def TokenFaithful (h : BlockHasher η) (r : Request η) : Prop :=
  r.blockHashes.length = r.numTokens / h.hashBlockSize ∧
    ∃ keys, r.blockHashes = h.chain r.allTokenIds keys (r.numTokens / h.hashBlockSize) 0 none

/-! ### The hasher on any request -/

theorem exists_keys_hashLoop (hB : 0 < h.hashBlockSize) {fuel start : Nat} {prev : Option η} {idx : Int}
    (hfuel : (r.numTokens - start) / h.hashBlockSize ≤ fuel) : ∃ keys, h.hashLoop r fuel start prev idx =
      h.chain r.allTokenIds keys ((r.numTokens - start) / h.hashBlockSize) start prev := by
  induction fuel generalizing start prev idx with
  | zero => exact ⟨fun _ _ => none, by rw [Nat.le_zero.1 hfuel]; rfl⟩
  | succ fuel ih =>
    by_cases hstop : start + h.hashBlockSize > r.numTokens
    · refine ⟨fun _ _ => none, ?_⟩
      rw [Nat.div_eq_of_lt (by omega)]
      simp only [hashLoop, if_pos hstop, BlockHasher.chain]
    · rw [BlockHasher.numBlocks_succ hB (Nat.not_lt.1 hstop)] at hfuel ⊢
      simp only [hashLoop, if_neg hstop, BlockHasher.chain]
      generalize generateBlockHashExtraKeys r start (start + h.hashBlockSize) idx = extra
      have hfuel' : (r.numTokens - (start + h.hashBlockSize)) / h.hashBlockSize ≤ fuel := by omega
      obtain ⟨keys, hkeys⟩ := @ih (start + h.hashBlockSize) (some (h.hashBlockTokens prev
        ((r.allTokenIds.take (start + h.hashBlockSize)).drop start) extra.1)) extra.2 hfuel'
      -- the block at `start` gets the keys generated for it, later blocks those of the rest of the loop
      refine ⟨fun s e => if s = start then extra.1 else keys s e, ?_⟩
      simp only [hkeys, ↓reduceIte, slice]
      refine congrArg _ (chain_congr (fun _ _ => rfl) fun k _ => ?_)
      rw [if_neg (by omega)]

theorem exists_keys_hash (hB : 0 < h.hashBlockSize) (r : Request η) : ∃ keys, h.hash r = h.newHashes r keys := by
  simp only [BlockHasher.hash, BlockHasher.newHashes]
  split
  · next hfull => exact ⟨fun _ _ => none, by rw [Nat.div_eq_of_lt (by omega)]; rfl⟩
  · exact exists_keys_hashLoop hB ((Nat.div_le_self _ _).trans (Nat.sub_le _ _))

/-- The hashes of the request are those of its first blocks, under some keys. -/
def TokenPrefix (h : BlockHasher η) (r : Request η) : Prop :=
  ∃ keys, r.blockHashes = h.chain r.allTokenIds keys r.blockHashes.length 0 none

theorem TokenFaithful.update (hh : q.blockHasher = some h) (hB : 0 < h.hashBlockSize)
    (hle : q.blockHashes.length ≤ q.numTokens / h.hashBlockSize) (hpre : q.TokenPrefix h) :
    TokenFaithful h q.updateBlockHashes := by
  obtain ⟨keys, hkeys⟩ := hpre
  obtain ⟨keys', hkeys'⟩ := exists_keys_hash hB q
  rw [BlockHasher.newHashes] at hkeys'
  have hcount := BlockHasher.numBlocks_eq hle
  have hnum : q.updateBlockHashes.numTokens = q.numTokens := by simp [numTokens]
  refine ⟨?_, fun s e => if s < q.blockHashes.length * h.hashBlockSize then keys s e else keys' s e, ?_⟩
  · rw [updateBlockHashes_blockHashes hh, length_append, hkeys', length_chain, hnum, hcount]
  · rw [updateBlockHashes_blockHashes hh, updateBlockHashes_allTokenIds, hnum, hcount,
      chain_append]
    have hold : h.chain q.allTokenIds
        (fun s e => if s < q.blockHashes.length * h.hashBlockSize then keys s e else keys' s e)
        q.blockHashes.length 0 none = q.blockHashes := by
      conv_rhs => rw [hkeys]
      refine chain_congr (fun _ _ => rfl) fun k hk => ?_
      rw [Nat.zero_add, if_pos (Nat.mul_lt_mul_of_pos_right hk hB)]
    rw [hold, Option.or_none, Nat.zero_add, hkeys']
    congr 1
    exact chain_congr (fun _ _ => rfl) fun k _ => by rw [if_neg (by omega)]

theorem TokenFaithful.update_inv (hh : q.blockHasher = some h) (hB : 0 < h.hashBlockSize)
    (hf : TokenFaithful h q.updateBlockHashes) :
    q.blockHashes.length ≤ q.numTokens / h.hashBlockSize ∧ q.TokenPrefix h := by
  obtain ⟨hlen, keys, hkeys⟩ := hf
  obtain ⟨keys', hkeys'⟩ := exists_keys_hash hB q
  have hnum : q.updateBlockHashes.numTokens = q.numTokens := by simp [numTokens]
  rw [updateBlockHashes_blockHashes hh, hnum] at hlen hkeys
  rw [hkeys', length_append, BlockHasher.newHashes, length_chain, Nat.mul_comm, Nat.sub_mul_div] at hlen
  have hle : q.blockHashes.length ≤ q.numTokens / h.hashBlockSize := by omega
  refine ⟨hle, keys, ?_⟩
  rw [updateBlockHashes_allTokenIds, ← Nat.add_sub_cancel' hle, chain_append] at hkeys
  exact ((append_eq_append_iff_of_size_eq_left (by simp)).1 hkeys).1

/-! ### Tokens under hashes -/

theorem slice_eq_of_take_eq {T T' : List TokenId} {n k : Nat}
    (ht : T.take (n * h.hashBlockSize) = T'.take (n * h.hashBlockSize)) (hk : k < n) :
    h.slice T (k * h.hashBlockSize) = h.slice T' (k * h.hashBlockSize) := by
  have hle : k * h.hashBlockSize + h.hashBlockSize ≤ n * h.hashBlockSize := by
    rw [← Nat.succ_mul]; exact Nat.mul_le_mul_right _ hk
  have hcut : ∀ L : List TokenId, h.slice L (k * h.hashBlockSize) =
      ((L.take (n * h.hashBlockSize)).take (k * h.hashBlockSize + h.hashBlockSize)).drop
        (k * h.hashBlockSize) := fun L => by
    rw [slice, take_take, Nat.min_eq_left hle]
  rw [hcut T, hcut T', ht]

theorem take_eq_of_slice_eq {T T' : List TokenId} {n : Nat}
    (hs : ∀ k < n, h.slice T (k * h.hashBlockSize) = h.slice T' (k * h.hashBlockSize)) :
    T.take (n * h.hashBlockSize) = T'.take (n * h.hashBlockSize) := by
  induction n with
  | zero => simp
  | succ n ih =>
    have hcut : ∀ L : List TokenId, L.take ((n + 1) * h.hashBlockSize) =
        L.take (n * h.hashBlockSize) ++ h.slice L (n * h.hashBlockSize) := fun L => by
      have htake : L.take (n * h.hashBlockSize) =
          (L.take (n * h.hashBlockSize + h.hashBlockSize)).take (n * h.hashBlockSize) := by
        rw [take_take, Nat.min_eq_left (Nat.le_add_right _ _)]
      rw [slice, Nat.succ_mul, htake, take_append_drop]
    rw [hcut T, hcut T', ih fun k hk => hs k (by omega), hs n (by omega)]

/-- `q` has the tokens of `r` under the hashes of `r`. -/
def SameHashed (h : BlockHasher η) (r q : Request η) : Prop :=
  q.allTokenIds.take (r.blockHashes.length * h.hashBlockSize) =
    r.allTokenIds.take (r.blockHashes.length * h.hashBlockSize)

theorem TokenFaithful.keeps (hB : 0 < h.hashBlockSize) (hf : r.TokenFaithful h)
    (hq : q.blockHashes = r.blockHashes) (hk : r.SameHashed h q) :
    q.blockHashes.length ≤ q.numTokens / h.hashBlockSize ∧ q.TokenPrefix h := by
  obtain ⟨hlen, keys, hkeys⟩ := hf
  have hcover : r.blockHashes.length * h.hashBlockSize ≤ r.allTokenIds.length :=
    (Nat.le_div_iff_mul_le hB).1 hlen.le
  have hlen' := congrArg List.length hk
  rw [length_take, length_take, Nat.min_eq_left hcover] at hlen'
  refine ⟨?_, keys, ?_⟩
  · rw [hq, Nat.le_div_iff_mul_le hB]
    exact hlen' ▸ Nat.min_le_right _ _
  · rw [← hlen] at hkeys
    rw [hq]
    conv_lhs => rw [hkeys]
    refine chain_congr (fun k hkl => ?_) fun _ _ => rfl
    rw [Nat.zero_add]
    exact slice_eq_of_take_eq hk.symm hkl

theorem TokenFaithful.keeps_inv (hinj : Function.Injective h.hashFn) (hf : r.TokenFaithful h)
    (hq : q.blockHashes = r.blockHashes) (hpre : q.TokenPrefix h) : r.SameHashed h q := by
  obtain ⟨hlen, keys, hkeys⟩ := hf
  obtain ⟨keys', hkeys'⟩ := hpre
  rw [← hlen] at hkeys
  rw [hq, hkeys, length_chain] at hkeys'
  refine take_eq_of_slice_eq fun k hk => ?_
  have := (chain_inj hinj hkeys' hk).1
  rw [Nat.zero_add] at this
  exact this.symm

/-! ### One step -/

/-- The operation calls the hasher on `q`: the request with its tokens and features after it. -/
structure Rehashes (r : Request η) (op : SessionOp) (q r' : Request η) : Prop where
  blockHashes : q.blockHashes = r.blockHashes
  blockHasher : q.blockHasher = r.blockHasher
  keysOver : q.keysOver = r.keysOver
  tokens : q.allTokenIds = op.tokensAfter r
  features : q.mmFeatures = r.mmFeatures ++ op.featuresAdded r
  hashes' : r'.blockHashes = q.updateBlockHashes.blockHashes
  tokens' : r'.allTokenIds = q.allTokenIds
  hasher' : r'.blockHasher = q.blockHasher
  keys' : r'.keysOver = q.keysOver
  features' : r'.mmFeatures = q.mmFeatures

theorem updateBlockHashes_keysOver (r : Request η) : r.updateBlockHashes.keysOver = r.keysOver := by
  unfold updateBlockHashes; split <;> rfl

theorem rehashes_of_apply {op : SessionOp} (hop : op.apply r = .ok r') : ∃ q, Rehashes r op q r' := by
  cases op with
  | append tokenIds =>
    cases hop
    refine ⟨r.withTokens tokenIds, rfl, rfl, rfl, rfl, (append_nil _).symm, rfl, ?_, ?_, ?_, ?_⟩ <;>
      rw [appendOutputTokenIds_eq]
    · exact updateBlockHashes_allTokenIds _
    · exact updateBlockHashes_blockHasher _
    · exact updateBlockHashes_keysOver _
    · exact updateBlockHashes_mmFeatures _
  | update n u =>
    cases hp : r.promptTokenIds with
    | none => simp [SessionOp.apply, updateAsSession, hp] at hop
    | some prompt =>
      simp only [SessionOp.apply, updateAsSession, hp, Except.ok.injEq] at hop
      subst hop
      exact ⟨withUpdate { r with numComputedTokens := n } prompt u, rfl, rfl, rfl, rfl, rfl, rfl,
        updateBlockHashes_allTokenIds _, updateBlockHashes_blockHasher _, updateBlockHashes_keysOver _,
        updateBlockHashes_mmFeatures _⟩

namespace Rehashes
variable {op : SessionOp} (hr : Rehashes r op q r')
include hr

theorem sameHashed_iff : r.SameHashed h q ↔ op.KeepsHashed h r := by
  unfold SameHashed SessionOp.KeepsHashed; rw [hr.tokens]

theorem tokenFaithful_iff : TokenFaithful h r' ↔ TokenFaithful h q.updateBlockHashes := by
  unfold TokenFaithful numTokens
  rw [hr.hashes', hr.tokens', updateBlockHashes_allTokenIds]

theorem tokenFaithful (hh : r.blockHasher = some h) (hB : 0 < h.hashBlockSize) (hf : r.TokenFaithful h)
    (hk : op.KeepsHashed h r) : r'.TokenFaithful h := by
  obtain ⟨hle, hpre⟩ := hf.keeps hB hr.blockHashes (hr.sameHashed_iff.2 hk)
  exact hr.tokenFaithful_iff.2 (TokenFaithful.update (hr.blockHasher.trans hh) hB hle hpre)

theorem keepsHashed (hinj : Function.Injective h.hashFn) (hh : r.blockHasher = some h) (hB : 0 < h.hashBlockSize)
    (hf : r.TokenFaithful h) (hf' : r'.TokenFaithful h) : op.KeepsHashed h r :=
  hr.sameHashed_iff.1 (hf.keeps_inv hinj hr.blockHashes
    (TokenFaithful.update_inv (hr.blockHasher.trans hh) hB (hr.tokenFaithful_iff.1 hf')).2)

end Rehashes

theorem Faithful.tokenFaithful (hf : r.Faithful h) : r.TokenFaithful h :=
  ⟨by rw [hf, length_chain], r.blockKeys, hf⟩

theorem Rehashes.faithful {op : SessionOp} (hr : Rehashes r op q r') (hh : r.blockHasher = some h)
    (hB : 0 < h.hashBlockSize) (hf : r.Faithful h) (hk : op.KeepsHashed h r) (hkeys : op.KeepsKeys h r) :
    r'.Faithful h := by
  have hsame := hr.sameHashed_iff.2 hk
  obtain ⟨hle, -⟩ := hf.tokenFaithful.keeps hB hr.blockHashes hsame
  have hpre : q.HashesPrefix h := by
    unfold HashesPrefix
    rw [hr.blockHashes]
    have hlen := hf.tokenFaithful.1
    unfold Faithful at hf
    rw [← hlen] at hf
    conv_lhs => rw [hf]
    refine chain_congr (fun k hkl => ?_) fun k hkl => ?_
    · rw [Nat.zero_add]; exact slice_eq_of_take_eq hsame.symm hkl
    · rw [Nat.zero_add, ← Nat.succ_mul]
      unfold blockKeys
      rw [hr.keysOver, hr.features, Request.keysOver, Request.keysOver, mmKeys_append,
        mmKeys_eq_nil_iff.2 fun f hf => hkeys.added f hf k hkl, append_nil]
  have hsees : q.SeesFeatures h := by
    intro hne i hi hend f hfm
    rw [hr.blockHashes] at hne hi
    rw [numTokens, hr.tokens] at hend
    rw [hr.features] at hfm
    exact hkeys.seen hne i hi hend f hfm
  have hno : NonOverlapping q.mmFeatures := hr.features ▸ hkeys.nonOverlapping
  have := Faithful.update hB (hr.blockHasher.trans hh) hle hno hpre hsees
  unfold Faithful numTokens blockKeys at this ⊢
  rw [hr.hashes', hr.tokens', hr.keys', hr.features', this, updateBlockHashes_allTokenIds,
    updateBlockHashes_keysOver, updateBlockHashes_mmFeatures]

/-! ### Whole sessions -/

/-- In every session, after every append and every update the hashes are those of exactly the current
tokens if (and, for an injective hash function, only if) no operation changed a token under a hash. If
the operations also keep the keys of the hashed blocks, the list is the one a call from scratch would
build. -/
theorem session_hashes_faithful {a : Args η} {r₀ : Request η} (hinit : Request.init a = .ok r₀)
    (hh : a.blockHasher = some h) (hB : 0 < h.hashBlockSize) (hno : NonOverlapping a.mmFeatures)
    (ops : List SessionOp) : (EveryStep (fun r op _ => op.KeepsHashed h r) r₀ ops →
      EveryStep (fun _ _ r' => r'.TokenFaithful h) r₀ ops) ∧
    (Function.Injective h.hashFn →
      (EveryStep (fun _ _ r' => r'.TokenFaithful h) r₀ ops ↔
        EveryStep (fun r op _ => op.KeepsHashed h r) r₀ ops)) ∧
    (EveryStep (fun r op _ => op.KeepsHashed h r ∧ op.KeepsKeys h r) r₀ ops →
      EveryStep (fun _ _ r' => r'.Faithful h) r₀ ops) := by
  obtain ⟨hr₀, hf₀, -⟩ := Hashed.init hinit hh hB hno
  have hstart : r₀.blockHasher = some h ∧ r₀.TokenFaithful h := ⟨hr₀.hasher, hf₀.tokenFaithful⟩
  have hkeep : EveryStep (fun r op _ => op.KeepsHashed h r) r₀ ops →
      EveryStep (fun _ _ r' => r'.TokenFaithful h) r₀ ops := by
    refine EveryStep.imp (I := fun r => r.blockHasher = some h ∧ r.TokenFaithful h) ?_ hstart
    rintro op r r' ⟨hh, hf⟩ hop hk
    obtain ⟨q, hq⟩ := rehashes_of_apply hop
    have hf' := hq.tokenFaithful hh hB hf hk
    exact ⟨hf', hq.hasher'.trans (hq.blockHasher.trans hh), hf'⟩
  refine ⟨hkeep, fun hinj => ⟨?_, hkeep⟩, ?_⟩
  · refine EveryStep.imp (I := fun r => r.blockHasher = some h ∧ r.TokenFaithful h) ?_ hstart
    rintro op r r' ⟨hh, hf⟩ hop hf'
    obtain ⟨q, hq⟩ := rehashes_of_apply hop
    exact ⟨hq.keepsHashed hinj hh hB hf hf', hq.hasher'.trans (hq.blockHasher.trans hh), hf'⟩
  · refine EveryStep.imp (I := fun r => r.blockHasher = some h ∧ r.Faithful h) ?_ ⟨hr₀.hasher, hf₀⟩
    rintro op r r' ⟨hh, hf⟩ hop ⟨hk, hkeys⟩
    obtain ⟨q, hq⟩ := rehashes_of_apply hop
    have hf' := hq.faithful hh hB hf hk hkeys
    exact ⟨hf', hq.hasher'.trans (hq.blockHasher.trans hh), hf'⟩

/-- A three-token prompt and one sampled token, which completes the first block. -/
def chunkedSession : Args FreeHash where
  requestId := 0
  promptTokenIds := some [1, 2, 3]
  samplingParams := some { maxTokens := 4 }
  blockHasher := some (FreeHash.hasher 4)
  resumable := true

def chunk (t : TokenId) : StreamingUpdate where
  promptTokenIds := some [t]
  maxTokens := 4
  arrivalTime := 1
  samplingParams := some { maxTokens := 4 }

/-- The sampled token `4` is discarded, and the client's next token happens to be `4` too. -/
theorem session_hashes_faithful_chunk :
    ∃ r₀, Request.init chunkedSession = .ok r₀ ∧ 0 < (FreeHash.hasher 4).hashBlockSize ∧
      NonOverlapping chunkedSession.mmFeatures ∧
      EveryStep (fun _ _ r' => r'.TokenFaithful (FreeHash.hasher 4)) r₀ [.append [4], .update 3 (chunk 4)] := by
  refine ⟨_, rfl, by decide, by decide, (session_hashes_faithful (a := chunkedSession) rfl rfl
    (by decide) (by decide) [.append [4], .update 3 (chunk 4)]).1 ?_⟩
  rintro _ ⟨⟩
  refine ⟨by decide, ?_⟩
  rintro _ ⟨⟩
  exact ⟨by decide, trivial⟩

/-- The sampled token `4` completed a block; it is discarded, the client's next token is `9`, and the
request keeps the hash of the tokens `1, 2, 3, 4`. -/
theorem session_hash_of_deleted_token :
    ∃ r₀ r₁ r₂, Request.init chunkedSession = .ok r₀ ∧ SessionOp.apply r₀ (.append [4]) = .ok r₁ ∧
      SessionOp.apply r₁ (.update 3 (chunk 9)) = .ok r₂ ∧ r₂.allTokenIds = [1, 2, 3, 9] ∧
      r₂.blockHashes = [.block .seed [1, 2, 3, 4] none] ∧ ¬ r₂.TokenFaithful (FreeHash.hasher 4) := by
  refine ⟨_, _, _, rfl, rfl, rfl, by decide, by decide, ?_⟩
  rintro ⟨-, keys, hkeys⟩
  have := congrArg List.head? hkeys
  injection this with this
  injection this with _ htokens _
  exact absurd htokens (by decide)

end Request

end VllmCore
