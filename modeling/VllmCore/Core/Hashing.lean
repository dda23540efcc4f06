import VllmCore.Core.Request

/-! # Incremental block hashing

The hasher is called again after every append, with the hashes of the earlier calls in place. A call on
a request without hashes walks the multimodal features from the first; a call that resumes looks at the
last feature only. `chain` is the hash chain over given tokens and keys; `hash_scratch` and
`hash_resume` say which keys the two kinds of call use, and `Request.Faithful` is the list a call from
scratch would build. -/

namespace VllmCore
open List BlockHasher
variable {η : Type} {idx : Int} {n : Nat} {as : List (List TokenId)} {a : List TokenId}

def NonOverlapping (fs : List MultiModalFeatureSpec) : Prop :=
  fs.Pairwise fun f g => f.mmPosition.offset + f.mmPosition.length ≤ g.mmPosition.offset

instance (fs : List MultiModalFeatureSpec) : Decidable (NonOverlapping fs) :=
  inferInstanceAs (Decidable (fs.Pairwise _))

/-- The multimodal keys of the block `[start, stop)` when the features `fs` are looked at. -/
def mmKeys (fs : List MultiModalFeatureSpec) (start stop : Nat) : List ExtraKey :=
  (fs.filter fun f => f.overlaps start stop).map fun f => f.key start

namespace Request

/-- The extra keys of the block `[start, stop)` when the features `fs` are looked at. -/
def keysOver (r : Request η) (fs : List MultiModalFeatureSpec) (start stop : Nat) : Option (List ExtraKey) :=
  packKeys (r.loraKeys ++ mmKeys fs start stop ++ r.saltKeys start ++ r.embedsKeys start stop)

/-- The keys a block should have: those of every feature that overlaps it. -/
def blockKeys (r : Request η) (start stop : Nat) : Option (List ExtraKey) :=
  r.keysOver r.mmFeatures start stop

/-- The keys a resuming call gives a block: those of the last feature. -/
def resumeKeys (r : Request η) (start stop : Nat) : Option (List ExtraKey) :=
  r.keysOver r.mmFeatures.getLast?.toList start stop

end Request

/-! ### The keys of one call -/

section Keys
variable {fs : List MultiModalFeatureSpec} {start stop : Nat}

theorem mmKeys_append (fs gs : List MultiModalFeatureSpec) (start stop : Nat) :
    mmKeys (fs ++ gs) start stop = mmKeys fs start stop ++ mmKeys gs start stop := by
  simp [mmKeys]

theorem mmKeys_eq_nil_iff : mmKeys fs start stop = [] ↔ ∀ f ∈ fs, f.overlaps start stop = false := by
  simp [mmKeys]

theorem mmKeys_of_apart
    (h : ∀ f ∈ fs, f.mmPosition.offset + f.mmPosition.length ≤ start ∨ stop ≤ f.mmPosition.offset) :
    mmKeys fs start stop = [] :=
  mmKeys_eq_nil_iff.2 fun f hf => by
    have := h f hf
    simp only [MultiModalFeatureSpec.overlaps, Bool.and_eq_false_iff, decide_eq_false_iff_not]
    omega

/-- On features in order, the loop collects the keys of all that overlap the block, and stops at a
feature such that all before it end within the block. -/
theorem genMmKeysLoop_spec (hno : NonOverlapping fs) (hlt : start < stop) (idx : Nat) :
    (genMmKeysLoop start stop fs idx).1 = mmKeys fs start stop ∧
    ∃ j ≤ fs.length, (genMmKeysLoop start stop fs idx).2 = idx + j ∧
      ∀ f ∈ fs.take j, f.mmPosition.offset + f.mmPosition.length ≤ stop := by
  induction fs generalizing idx with
  | nil => exact ⟨rfl, 0, le_rfl, rfl, by simp⟩
  | cons f fs ih =>
    obtain ⟨hf, hno⟩ := pairwise_cons.1 hno
    obtain ⟨hkeys, j, hle, hj, hpassed⟩ := ih hno (idx + 1)
    have hcons : mmKeys (f :: fs) start stop = mmKeys [f] start stop ++ mmKeys fs start stop :=
      mmKeys_append [f] fs start stop
    have hov : stop > f.mmPosition.offset → start < f.mmPosition.offset + f.mmPosition.length →
        mmKeys [f] start stop = [f.key start] := by
      intro h1 h2
      simp only [mmKeys, MultiModalFeatureSpec.overlaps]
      rw [filter_cons_of_pos (by simp; omega)]; rfl
    have htake : f.mmPosition.offset + f.mmPosition.length ≤ stop →
        ∀ g ∈ (f :: fs).take (j + 1), g.mmPosition.offset + g.mmPosition.length ≤ stop := by
      intro hend g hg
      rcases mem_cons.1 (by simpa using hg) with rfl | hg
      · exact hend
      · exact hpassed g hg
    simp only [genMmKeysLoop]
    split_ifs with hreach hpass hend
    · -- the block lies after this feature
      have hnone : mmKeys [f] start stop = [] := mmKeys_of_apart (by simpa using .inl hpass)
      rw [hcons, hnone]
      exact ⟨hkeys, j + 1, by simpa using hle, by omega, htake (by omega)⟩
    · -- the feature ends in this block: go on to the next
      rw [hcons, hov hreach (by omega)]
      exact ⟨by simp [hkeys], j + 1, by simpa using hle, by simp only []; omega, htake hend⟩
    · -- the feature goes on after this block, so the later ones start after it
      rw [hcons, hov hreach (by omega), mmKeys_of_apart fun g hg => by have := hf g hg; omega]
      exact ⟨rfl, 0, Nat.zero_le _, rfl, by simp⟩
    · -- neither this feature nor a later one is reached
      rw [mmKeys_of_apart fun g hg => .inr ?_]
      · exact ⟨rfl, 0, Nat.zero_le _, rfl, by simp⟩
      · rcases mem_cons.1 hg with rfl | hg
        · omega
        · have := hf g hg; omega

/-- A walk from the first feature: `idx` features end before the block. -/
def PassedBefore (fs : List MultiModalFeatureSpec) (start : Nat) (idx : Int) : Prop :=
  ∃ k : Nat, idx = k ∧ ∀ f ∈ fs.take k, f.mmPosition.offset + f.mmPosition.length ≤ start

theorem genMmExtraHashKeys_walk (hno : NonOverlapping fs) (hlt : start < stop) (hidx : PassedBefore fs start idx) :
    (genMmExtraHashKeys fs start stop idx).1 = mmKeys fs start stop ∧
      PassedBefore fs stop (genMmExtraHashKeys fs start stop idx).2 := by
  obtain ⟨k, rfl, hk⟩ := hidx
  have hmono : PassedBefore fs stop (k : Int) := ⟨k, rfl, fun f hf => (hk f hf).trans hlt.le⟩
  cases hlast : fs.getLast? with
  | none =>
    rw [getLast?_eq_none_iff] at hlast
    subst hlast
    exact ⟨rfl, hmono⟩
  | some last =>
    obtain ⟨init, rfl⟩ := getLast?_eq_some_iff.1 hlast
    simp only [genMmExtraHashKeys, hlast]
    by_cases hend : last.mmPosition.offset + last.mmPosition.length ≤ start
    · -- the last feature is passed, hence all of them
      rw [if_pos hend]
      refine ⟨(mmKeys_of_apart fun f hf => .inl ?_).symm, hmono⟩
      rcases mem_append.1 hf with hf | hf
      · have := (pairwise_append.1 hno).2.2 f hf last (by simp)
        omega
      · rw [mem_singleton.1 hf]; exact hend
    · obtain ⟨hkeys, j, -, hj, hpassed⟩ :=
        genMmKeysLoop_spec (hno.sublist (drop_sublist k _)) hlt k
      have hk0 : ¬ (k : Int) < 0 := by omega
      simp only [if_neg hend, if_neg hk0, Int.toNat_natCast]
      refine ⟨?_, k + j, by rw [hj], fun f hf => ?_⟩
      · rw [hkeys]
        conv_rhs => rw [← take_append_drop k (init ++ [last])]
        rw [mmKeys_append, mmKeys_of_apart fun f hf => .inl (hk f hf), nil_append]
      · rw [take_add] at hf
        rcases mem_append.1 hf with hf | hf
        · exact (hk f hf).trans hlt.le
        · exact hpassed f hf

/-- A walk that resumed at the last feature: it is at that feature, or past it. -/
def AtLast (fs : List MultiModalFeatureSpec) (start : Nat) (idx : Int) : Prop :=
  idx = -1 ∨ idx + 1 = fs.length ∨
    idx = fs.length ∧ ∀ f ∈ fs.getLast?, f.mmPosition.offset + f.mmPosition.length ≤ start

theorem genMmExtraHashKeys_resume (hlt : start < stop) (hidx : AtLast fs start idx) :
    (genMmExtraHashKeys fs start stop idx).1 = mmKeys fs.getLast?.toList start stop ∧
      AtLast fs stop (genMmExtraHashKeys fs start stop idx).2 := by
  have hmono : AtLast fs stop idx := by
    rcases hidx with h | h | ⟨h, hp⟩
    · exact .inl h
    · exact .inr (.inl h)
    · exact .inr (.inr ⟨h, fun f hf => (hp f hf).trans hlt.le⟩)
  cases hlast : fs.getLast? with
  | none =>
    rw [getLast?_eq_none_iff] at hlast
    subst hlast
    exact ⟨rfl, hmono⟩
  | some last =>
    obtain ⟨init, rfl⟩ := getLast?_eq_some_iff.1 hlast
    simp only [genMmExtraHashKeys, hlast, Option.toList_some]
    by_cases hend : last.mmPosition.offset + last.mmPosition.length ≤ start
    · rw [if_pos hend]
      exact ⟨(mmKeys_of_apart (by simpa using .inl hend)).symm, hmono⟩
    · have hat : (if idx < 0 then ((init ++ [last]).length : Int) + idx else idx).toNat = init.length := by
        rcases hidx with h | h | ⟨_, hp⟩
        · rw [if_pos (by omega), h, length_append, length_singleton]; omega
        · rw [length_append, length_singleton] at h
          rw [if_neg (by omega)]; omega
        · exact absurd (hp last hlast) hend
      rw [if_neg hend]
      simp only [hat, drop_left]
      have hone : NonOverlapping [last] := pairwise_singleton _ _
      obtain ⟨hkeys, j, hle, hj, hpassed⟩ := genMmKeysLoop_spec hone hlt init.length
      refine ⟨hkeys, ?_⟩
      rw [hj]
      rw [length_singleton] at hle
      rcases Nat.le_one_iff_eq_zero_or_eq_one.1 hle with rfl | rfl
      · exact .inr (.inl (by simp))
      · refine .inr (.inr ⟨by simp, fun f hf => ?_⟩)
        rw [hlast, Option.mem_some_iff] at hf
        exact hf ▸ hpassed last (by simp)

end Keys

/-! ### Hash chains -/

namespace BlockHasher
variable {h : BlockHasher η} {r : Request η} {prev : Option η} {start : Nat}

def slice (h : BlockHasher η) (tokens : List TokenId) (start : Nat) : List TokenId :=
  (tokens.take (start + h.hashBlockSize)).drop start

/-- The hashes of `n` blocks from `start` on, over given tokens and keys, after the hash `prev`. -/
def chain (h : BlockHasher η) (tokens : List TokenId) (keys : Nat → Nat → Option (List ExtraKey)) :
    Nat → Nat → Option η → List η
  | 0, _, _ => []
  | n + 1, start, prev =>
    let x := h.hashBlockTokens prev (h.slice tokens start) (keys start (start + h.hashBlockSize))
    x :: h.chain tokens keys n (start + h.hashBlockSize) (some x)

section Chain
variable {tokens tokens' : List TokenId} {keys keys' : Nat → Nat → Option (List ExtraKey)}

@[simp] theorem length_chain (n start : Nat) (prev : Option η) : (h.chain tokens keys n start prev).length = n := by
  induction n generalizing start prev with
  | zero => rfl
  | succ n ih => simp [chain, ih]

theorem chain_congr
    (ht : ∀ k < n, h.slice tokens (start + k * h.hashBlockSize) = h.slice tokens' (start + k * h.hashBlockSize))
    (hk : ∀ k < n, keys (start + k * h.hashBlockSize) (start + k * h.hashBlockSize + h.hashBlockSize) =
      keys' (start + k * h.hashBlockSize) (start + k * h.hashBlockSize + h.hashBlockSize)) :
    h.chain tokens keys n start prev = h.chain tokens' keys' n start prev := by
  induction n generalizing start prev with
  | zero => rfl
  | succ n ih =>
    have h0 := ht 0 (Nat.succ_pos n)
    have hk0 := hk 0 (Nat.succ_pos n)
    simp only [Nat.zero_mul, Nat.add_zero] at h0 hk0
    have hshift : ∀ k, start + h.hashBlockSize + k * h.hashBlockSize =
        start + (k + 1) * h.hashBlockSize := fun k => by rw [Nat.succ_mul]; omega
    simp only [chain, h0, hk0]
    rw [ih (fun k hlt => by rw [hshift]; exact ht _ (by omega))
      (fun k hlt => by rw [hshift]; exact hk _ (by omega))]

theorem chain_append (m n start : Nat) (prev : Option η) :
    h.chain tokens keys (m + n) start prev = h.chain tokens keys m start prev ++
      h.chain tokens keys n (start + m * h.hashBlockSize)
        ((h.chain tokens keys m start prev).getLast?.or prev) := by
  induction m generalizing start prev with
  | zero => simp [chain]
  | succ m ih =>
    rw [Nat.add_right_comm]
    simp only [chain, ih, cons_append]
    rw [Nat.succ_mul, Nat.add_assoc start, Nat.add_comm h.hashBlockSize]
    congr 2
    cases hc : (h.chain tokens keys m (start + h.hashBlockSize)
      (some (h.hashBlockTokens prev (h.slice tokens start) (keys start (start + h.hashBlockSize))))) with
    | nil => simp
    | cons x l => simp [getLast?_cons]

theorem chain_inj (hinj : Function.Injective h.hashFn) {prev' : Option η}
    (he : h.chain tokens keys n start prev = h.chain tokens' keys' n start prev') {k : Nat} (hk : k < n) :
    h.slice tokens (start + k * h.hashBlockSize) = h.slice tokens' (start + k * h.hashBlockSize) ∧
    keys (start + k * h.hashBlockSize) (start + k * h.hashBlockSize + h.hashBlockSize) =
      keys' (start + k * h.hashBlockSize) (start + k * h.hashBlockSize + h.hashBlockSize) := by
  induction n generalizing start prev prev' k with
  | zero => omega
  | succ n ih =>
    simp only [chain, List.cons.injEq] at he
    cases k with
    | zero =>
      have := hinj he.1
      simp only [HashInput.block.injEq] at this
      simpa using this.2
    | succ k =>
      have := ih he.2 (k := k) (by omega)
      rwa [Nat.add_assoc, Nat.add_comm h.hashBlockSize, ← Nat.succ_mul] at this

theorem chain_concat (n : Nat) : h.chain tokens keys (n + 1) 0 none = h.chain tokens keys n 0 none ++
    [h.hashBlockTokens (h.chain tokens keys n 0 none).getLast? (h.slice tokens (n * h.hashBlockSize))
      (keys (n * h.hashBlockSize) (n * h.hashBlockSize + h.hashBlockSize))] := by
  rw [chain_append n 1]
  simp [chain]

/-- The last hash determines all hashes before it, and how many they are: no block has the hash of the seed. -/
theorem chain_eq_of_last (hinj : Function.Injective h.hashFn) {i j : Nat}
    (he : (h.chain tokens keys i 0 none).getLast?.getD h.noneHash =
      (h.chain tokens' keys' j 0 none).getLast?.getD h.noneHash) :
    h.chain tokens keys i 0 none = h.chain tokens' keys' j 0 none := by
  induction i generalizing j with
  | zero =>
    cases j with
    | zero => rfl
    | succ j => rw [chain_concat, getLast?_concat] at he; cases hinj he
  | succ i ih =>
    cases j with
    | zero => rw [chain_concat, getLast?_concat] at he; cases hinj he
    | succ j =>
      rw [chain_concat, chain_concat j, getLast?_concat, getLast?_concat] at he
      rw [chain_concat, chain_concat j]
      exact congrArg₂ (· ++ ·) (ih (HashInput.block.inj (hinj he)).1) (congrArg (fun x => [x]) he)

end Chain

/-- The extra keys of the blocks are `keys`, as long as the walk over the features is `Good`. -/
def Generates (h : BlockHasher η) (r : Request η) (keys : Nat → Nat → Option (List ExtraKey))
    (Good : Nat → Int → Prop) : Prop :=
  ∀ start idx, Good start idx →
    (generateBlockHashExtraKeys r start (start + h.hashBlockSize) idx).1 = keys start (start + h.hashBlockSize) ∧
    Good (start + h.hashBlockSize) (generateBlockHashExtraKeys r start (start + h.hashBlockSize) idx).2

theorem numBlocks_eq (hle : r.blockHashes.length ≤ r.numTokens / h.hashBlockSize) :
    r.numTokens / h.hashBlockSize = r.blockHashes.length +
      (r.numTokens - r.blockHashes.length * h.hashBlockSize) / h.hashBlockSize := by
  rw [Nat.mul_comm, Nat.sub_mul_div, Nat.add_sub_cancel' hle]

variable (hB : 0 < h.hashBlockSize)
include hB

theorem numBlocks_succ (hle : start + h.hashBlockSize ≤ r.numTokens) :
    (r.numTokens - start) / h.hashBlockSize = (r.numTokens - (start + h.hashBlockSize)) / h.hashBlockSize + 1 := by
  rw [← Nat.sub_sub, Nat.div_eq_sub_div hB (by omega)]

/-- The hasher's loop is a chain, for any description `keys` of the keys it generates. -/
theorem hashLoop_eq_chain {keys : Nat → Nat → Option (List ExtraKey)}
    {Good : Nat → Int → Prop} (hgood : h.Generates r keys Good) {fuel : Nat} (hidx : Good start idx)
    (hfuel : (r.numTokens - start) / h.hashBlockSize ≤ fuel) : h.hashLoop r fuel start prev idx =
      h.chain r.allTokenIds keys ((r.numTokens - start) / h.hashBlockSize) start prev := by
  induction fuel generalizing start prev idx with
  | zero => rw [Nat.le_zero.1 hfuel]; rfl
  | succ fuel ih =>
    by_cases hstop : start + h.hashBlockSize > r.numTokens
    · rw [Nat.div_eq_of_lt (by omega)]
      simp only [hashLoop, if_pos hstop, chain]
    · obtain ⟨hkeys, hnext⟩ := hgood start idx hidx
      rw [numBlocks_succ hB (Nat.not_lt.1 hstop)] at hfuel ⊢
      simp only [hashLoop, if_neg hstop, chain, slice, hkeys]
      rw [ih hnext (by omega)]

/-- A call on a request without hashes gives every block the keys of all features that overlap it. -/
theorem hash_scratch (hno : NonOverlapping r.mmFeatures) (hr : r.blockHashes = []) :
    h.hash r = h.chain r.allTokenIds r.blockKeys (r.numTokens / h.hashBlockSize) 0 none := by
  have hgood : h.Generates r r.blockKeys (PassedBefore r.mmFeatures) := by
    intro start idx hidx
    obtain ⟨hkeys, hnext⟩ := genMmExtraHashKeys_walk hno (Nat.lt_add_of_pos_right hB) hidx
    exact ⟨by simp only [generateBlockHashExtraKeys, hkeys]; rfl, hnext⟩
  simp only [hash, hr, length_nil, Nat.zero_mul, Nat.zero_add]
  by_cases hfull : h.hashBlockSize > r.numTokens
  · rw [if_pos hfull, Nat.div_eq_of_lt hfull]; rfl
  · rw [if_neg hfull, if_neg (Nat.lt_irrefl 0)]
    exact hashLoop_eq_chain hB hgood ⟨0, rfl, by simp⟩ (Nat.div_le_self _ _)

def newHashes (h : BlockHasher η) (r : Request η) (keys : Nat → Nat → Option (List ExtraKey)) : List η :=
  h.chain r.allTokenIds keys ((r.numTokens - r.blockHashes.length * h.hashBlockSize) / h.hashBlockSize)
    (r.blockHashes.length * h.hashBlockSize) r.blockHashes.getLast?

/-- A call that resumes gives every new block the key of the last feature only. -/
theorem hash_resume (hr : r.blockHashes ≠ []) : h.hash r = h.newHashes r r.resumeKeys := by
  have hgood : h.Generates r r.resumeKeys (AtLast r.mmFeatures) := by
    intro start idx hidx
    obtain ⟨hkeys, hnext⟩ := genMmExtraHashKeys_resume (Nat.lt_add_of_pos_right hB) hidx
    exact ⟨by simp only [generateBlockHashExtraKeys, hkeys]; rfl, hnext⟩
  have hpos : 0 < r.blockHashes.length * h.hashBlockSize :=
    Nat.mul_pos (length_pos_iff.2 hr) hB
  simp only [hash, newHashes]
  by_cases hfull : r.blockHashes.length * h.hashBlockSize + h.hashBlockSize > r.numTokens
  · rw [if_pos hfull, Nat.div_eq_of_lt (by omega)]; rfl
  · rw [if_neg hfull, if_pos hpos]
    exact hashLoop_eq_chain hB hgood (.inl rfl) ((Nat.div_le_self _ _).trans (Nat.sub_le _ _))

end BlockHasher

/-! ### Faithful hash lists -/

namespace Request
variable {h : BlockHasher η} {r : Request η}

/-- The hash list a call from scratch would build: one hash for each full block of the tokens, keyed by
every feature that overlaps the block. -/
def Faithful (h : BlockHasher η) (r : Request η) : Prop :=
  r.blockHashes = h.chain r.allTokenIds r.blockKeys (r.numTokens / h.hashBlockSize) 0 none

/-- A call of the hasher on `r` looks at every feature that overlaps a block it hashes: it starts from
the first feature, or only the last one can overlap. -/
def SeesFeatures (h : BlockHasher η) (r : Request η) : Prop :=
  r.blockHashes ≠ [] → ∀ i, r.blockHashes.length ≤ i → (i + 1) * h.hashBlockSize ≤ r.numTokens →
    ∀ f ∈ r.mmFeatures.dropLast, f.overlaps (i * h.hashBlockSize) ((i + 1) * h.hashBlockSize) = false

theorem packKeys_injective : Function.Injective packKeys := by
  intro a b hab
  unfold packKeys at hab
  split_ifs at hab with ha hb hb <;> simp_all

theorem resumeKeys_eq_blockKeys_iff (start stop : Nat) : r.resumeKeys start stop = r.blockKeys start stop ↔
      ∀ f ∈ r.mmFeatures.dropLast, f.overlaps start stop = false := by
  have hsplit : mmKeys r.mmFeatures start stop =
      mmKeys r.mmFeatures.dropLast start stop ++ mmKeys r.mmFeatures.getLast?.toList start stop := by
    rw [← mmKeys_append]
    cases hl : r.mmFeatures.getLast? with
    | none => rw [getLast?_eq_none_iff] at hl; simp [hl]
    | some f =>
      obtain ⟨init, hinit⟩ := getLast?_eq_some_iff.1 hl
      simp [hinit]
  rw [← mmKeys_eq_nil_iff]
  unfold resumeKeys blockKeys keysOver
  rw [packKeys_injective.eq_iff, hsplit]
  constructor
  · intro he
    have := congrArg List.length he
    simp only [length_append] at this
    exact length_eq_zero_iff.1 (by omega)
  · intro he
    rw [he, nil_append]

@[simp] theorem updateBlockHashes_allTokenIds (r : Request η) : r.updateBlockHashes.allTokenIds = r.allTokenIds := by
  unfold updateBlockHashes; split <;> rfl

@[simp] theorem updateBlockHashes_blockHasher (r : Request η) : r.updateBlockHashes.blockHasher = r.blockHasher := by
  unfold updateBlockHashes; split <;> rfl

@[simp] theorem updateBlockHashes_blockKeys (r : Request η) : r.updateBlockHashes.blockKeys = r.blockKeys := by
  unfold updateBlockHashes; split <;> rfl

@[simp] theorem updateBlockHashes_mmFeatures (r : Request η) : r.updateBlockHashes.mmFeatures = r.mmFeatures := by
  unfold updateBlockHashes; split <;> rfl

theorem updateBlockHashes_blockHashes (hh : r.blockHasher = some h) :
    r.updateBlockHashes.blockHashes = r.blockHashes ++ h.hash r := by
  simp [updateBlockHashes, hh]

def HashesPrefix (h : BlockHasher η) (r : Request η) : Prop :=
  r.blockHashes = h.chain r.allTokenIds r.blockKeys r.blockHashes.length 0 none

/-- A call that resumes completes a faithful list iff it started from one and adds the right keys. -/
theorem faithful_resume_iff (hh : r.blockHasher = some h) (hle : r.blockHashes.length ≤ r.numTokens / h.hashBlockSize) :
    Faithful h r.updateBlockHashes ↔ r.HashesPrefix h ∧ h.hash r = h.newHashes r r.blockKeys := by
  unfold Faithful HashesPrefix
  rw [updateBlockHashes_blockHashes hh, updateBlockHashes_allTokenIds, updateBlockHashes_blockKeys,
    show r.updateBlockHashes.numTokens = r.numTokens by simp [numTokens], numBlocks_eq hle,
    chain_append, append_eq_append_iff_of_size_eq_left (by simp), Nat.zero_add]
  refine and_congr_right fun hpre => ?_
  rw [← hpre, Option.or_none, newHashes]

section
variable (hB : 0 < h.hashBlockSize)
include hB

theorem lt_newBlocks_iff (n len k : Nat) :
    k < (n - len * h.hashBlockSize) / h.hashBlockSize ↔ (len + k + 1) * h.hashBlockSize ≤ n := by
  rw [Nat.lt_iff_add_one_le, Nat.le_div_iff_mul_le hB, Nat.add_assoc len, Nat.add_mul len]
  have : 0 < (k + 1) * h.hashBlockSize := Nat.mul_pos (Nat.succ_pos k) hB
  omega

theorem hash_eq_of_seesFeatures (hr : r.blockHashes ≠ []) (hs : r.SeesFeatures h) :
    h.hash r = h.newHashes r r.blockKeys := by
  rw [hash_resume hB hr]
  refine chain_congr (fun _ _ => rfl) fun k hk => ?_
  rw [resumeKeys_eq_blockKeys_iff, ← Nat.add_mul, ← Nat.succ_mul]
  exact hs hr (r.blockHashes.length + k) (by omega) ((lt_newBlocks_iff hB ..).1 hk)

theorem seesFeatures_of_hash_eq (hinj : Function.Injective h.hashFn) (he : h.hash r = h.newHashes r r.blockKeys) :
    r.SeesFeatures h := by
  intro hr i hi hle
  rw [hash_resume hB hr] at he
  obtain ⟨k, rfl⟩ := Nat.exists_eq_add_of_le hi
  have := (chain_inj hinj he ((lt_newBlocks_iff hB ..).2 hle)).2
  rwa [resumeKeys_eq_blockKeys_iff, ← Nat.add_mul, ← Nat.succ_mul] at this

variable (hh : r.blockHasher = some h)
include hh

theorem Faithful.of_scratch (hno : NonOverlapping r.mmFeatures) (hr : r.blockHashes = []) :
    Faithful h r.updateBlockHashes := by
  unfold Faithful numTokens
  rw [updateBlockHashes_blockHashes hh, updateBlockHashes_allTokenIds, updateBlockHashes_blockKeys, hr,
    nil_append, hash_scratch hB hno hr]
  rfl

variable (hle : r.blockHashes.length ≤ r.numTokens / h.hashBlockSize)
include hle

theorem Faithful.update (hno : NonOverlapping r.mmFeatures) (hpre : r.HashesPrefix h) (hs : r.SeesFeatures h) :
    Faithful h r.updateBlockHashes := by
  by_cases hr : r.blockHashes = []
  · exact .of_scratch hB hh hno hr
  · exact (faithful_resume_iff hh hle).2 ⟨hpre, hash_eq_of_seesFeatures hB hr hs⟩

theorem Faithful.update_inv (hinj : Function.Injective h.hashFn) (hf : Faithful h r.updateBlockHashes) :
    r.HashesPrefix h ∧ r.SeesFeatures h := by
  obtain ⟨hpre, he⟩ := (faithful_resume_iff hh hle).1 hf
  exact ⟨hpre, seesFeatures_of_hash_eq hB hinj he⟩

theorem length_update (hno : NonOverlapping r.mmFeatures) :
    r.updateBlockHashes.blockHashes.length = r.numTokens / h.hashBlockSize := by
  rw [updateBlockHashes_blockHashes hh, length_append]
  by_cases hr : r.blockHashes = []
  · rw [hash_scratch hB hno hr, hr]; simp
  · rw [hash_resume hB hr, newHashes, length_chain, numBlocks_eq hle]

end

/-! ### Appending tokens -/

def withTokens (r : Request η) (tokenIds : List TokenId) : Request η :=
  { r with outputTokenIds := r.outputTokenIds ++ tokenIds, allTokenIds := r.allTokenIds ++ tokenIds }

theorem appendOutputTokenIds_eq (r : Request η) (tokenIds : List TokenId) :
    r.appendOutputTokenIds tokenIds = (r.withTokens tokenIds).updateBlockHashes := rfl

theorem slice_append {tokens tokenIds : List TokenId} {start : Nat} (hle : start + h.hashBlockSize ≤ tokens.length) :
    h.slice (tokens ++ tokenIds) start = h.slice tokens start := by
  rw [slice, slice, take_append_of_le_length hle]

theorem chain_withTokens (hB : 0 < h.hashBlockSize) (tokenIds : List TokenId) (hn : n ≤ r.numTokens / h.hashBlockSize) :
    h.chain (r.withTokens tokenIds).allTokenIds (r.withTokens tokenIds).blockKeys n 0 none =
      h.chain r.allTokenIds r.blockKeys n 0 none := by
  refine chain_congr (fun k hk => slice_append ?_) fun _ _ => rfl
  have hk' := (Nat.le_div_iff_mul_le hB).1 (Nat.le_trans (Nat.succ_le_of_lt hk) hn)
  rw [Nat.succ_mul] at hk'
  rw [Nat.zero_add]
  exact hk'

/-- With `n` tokens so far and appends of the given sizes: once a block is hashed, no feature but the
last overlaps a block that an append completes. -/
def SeesAppends (hashBlockSize : Nat) (fs : List MultiModalFeatureSpec) : Nat → List Nat → Prop
  | _, [] => True
  | n, a :: as =>
    (hashBlockSize ≤ n → ∀ i, n / hashBlockSize ≤ i → (i + 1) * hashBlockSize ≤ n + a →
      ∀ f ∈ fs.dropLast, f.overlaps (i * hashBlockSize) ((i + 1) * hashBlockSize) = false) ∧
    SeesAppends hashBlockSize fs (n + a) as

theorem length_withTokens_le (hlen : r.blockHashes.length = r.numTokens / h.hashBlockSize) (a : List TokenId) :
    (r.withTokens a).blockHashes.length ≤ (r.withTokens a).numTokens / h.hashBlockSize := by
  show r.blockHashes.length ≤ (r.allTokenIds ++ a).length / h.hashBlockSize
  rw [hlen, numTokens, length_append]
  exact Nat.div_le_div_right (Nat.le_add_right _ _)

theorem hashesPrefix_withTokens_iff (hB : 0 < h.hashBlockSize)
    (hlen : r.blockHashes.length = r.numTokens / h.hashBlockSize) (a : List TokenId) :
    (r.withTokens a).HashesPrefix h ↔ r.Faithful h := by
  unfold HashesPrefix Faithful
  rw [show (r.withTokens a).blockHashes = r.blockHashes from rfl, chain_withTokens hB a hlen.le, hlen]

/-- What holds of a request along a run of appends, whether or not its hashes are right. -/
structure Hashed (h : BlockHasher η) (r : Request η) : Prop where
  hasher : r.blockHasher = some h
  nonOverlapping : NonOverlapping r.mmFeatures
  length : r.blockHashes.length = r.numTokens / h.hashBlockSize

namespace Hashed

section
variable (hr : r.Hashed h) (hB : 0 < h.hashBlockSize)
include hr hB

theorem append (a : List TokenId) : (r.appendOutputTokenIds a).Hashed h where
  hasher := by rw [appendOutputTokenIds_eq, updateBlockHashes_blockHasher]; exact hr.hasher
  nonOverlapping := by rw [appendOutputTokenIds_eq, updateBlockHashes_mmFeatures]; exact hr.nonOverlapping
  length := by
    have := length_update (r := r.withTokens a) hB hr.hasher (length_withTokens_le hr.length a) hr.nonOverlapping
    rw [appendOutputTokenIds_eq, this, numTokens, numTokens, updateBlockHashes_allTokenIds]

theorem ne_nil_iff : r.blockHashes ≠ [] ↔ h.hashBlockSize ≤ r.numTokens := by
  rw [← length_pos_iff, hr.length, Nat.div_pos_iff]
  exact and_iff_right hB

/-- Whether an append sees the features depends on the number of tokens before and after it only. -/
theorem seesFeatures_iff (a : List TokenId) : (r.withTokens a).SeesFeatures h ↔
      (h.hashBlockSize ≤ r.numTokens → ∀ i, r.numTokens / h.hashBlockSize ≤ i →
        (i + 1) * h.hashBlockSize ≤ r.numTokens + a.length →
        ∀ f ∈ r.mmFeatures.dropLast, f.overlaps (i * h.hashBlockSize) ((i + 1) * h.hashBlockSize) = false) := by
  have hn : (r.withTokens a).numTokens = r.numTokens + a.length := length_append
  unfold SeesFeatures
  rw [show (r.withTokens a).blockHashes = r.blockHashes from rfl, hr.ne_nil_iff hB, hr.length, hn]
  rfl

theorem faithful_append (hf : r.Faithful h) (hs : (r.withTokens a).SeesFeatures h) :
    (r.appendOutputTokenIds a).Faithful h :=
  Faithful.update (r := r.withTokens a) hB hr.hasher (length_withTokens_le hr.length a) hr.nonOverlapping
    ((hashesPrefix_withTokens_iff hB hr.length a).2 hf) hs

theorem faithful_append_inv (hinj : Function.Injective h.hashFn) (hf : (r.appendOutputTokenIds a).Faithful h) :
    r.Faithful h ∧ (r.withTokens a).SeesFeatures h :=
  (Faithful.update_inv (r := r.withTokens a) hB hr.hasher (length_withTokens_le hr.length a) hinj hf).imp_left
    (hashesPrefix_withTokens_iff hB hr.length a).1

end

theorem init {args : Args η} (hinit : Request.init args = .ok r) (hh : args.blockHasher = some h)
    (hB : 0 < h.hashBlockSize) (hno : NonOverlapping args.mmFeatures) :
    r.Hashed h ∧ r.Faithful h ∧ r.mmFeatures = args.mmFeatures := by
  simp only [Request.init, Except.do_eq_ok] at hinit
  obtain ⟨_, -, _, -, rfl⟩ := hinit
  refine ⟨⟨?_, ?_, ?_⟩, Faithful.of_scratch hB ?_ ?_ rfl, updateBlockHashes_mmFeatures _⟩
  · rw [updateBlockHashes_blockHasher]; exact hh
  · rw [updateBlockHashes_mmFeatures]; exact hno
  · rw [length_update (h := h) hB hh (Nat.zero_le _) hno, numTokens, numTokens,
      updateBlockHashes_allTokenIds]
  · exact hh
  · exact hno

end Hashed

def appendAll (r : Request η) (as : List (List TokenId)) : Request η := as.foldl appendOutputTokenIds r

theorem Hashed.appendAll (hB : 0 < h.hashBlockSize) (hr : r.Hashed h) : (r.appendAll as).Hashed h := by
  induction as generalizing r with
  | nil => exact hr
  | cons a as ih => exact ih (hr.append hB a)

theorem numTokens_append (r : Request η) (a : List TokenId) :
    (r.appendOutputTokenIds a).numTokens = r.numTokens + a.length := by
  rw [appendOutputTokenIds_eq, numTokens, updateBlockHashes_allTokenIds]
  exact length_append

theorem mmFeatures_append (r : Request η) (a : List TokenId) : (r.appendOutputTokenIds a).mmFeatures = r.mmFeatures :=
  updateBlockHashes_mmFeatures (r.withTokens a)

theorem Hashed.faithful_appendAll (hB : 0 < h.hashBlockSize) (as : List (List TokenId))
    (hr : r.Hashed h) (hf : r.Faithful h)
    (hs : SeesAppends h.hashBlockSize r.mmFeatures r.numTokens (as.map List.length)) : (r.appendAll as).Faithful h := by
  induction as generalizing r with
  | nil => exact hf
  | cons a as ih =>
    refine ih (hr.append hB a) (hr.faithful_append hB hf ((hr.seesFeatures_iff hB a).2 hs.1)) ?_
    rw [mmFeatures_append, numTokens_append]
    exact hs.2

theorem Hashed.seesAppends_of_faithful (hB : 0 < h.hashBlockSize) (hinj : Function.Injective h.hashFn) (hr : r.Hashed h)
    (hf : (r.appendAll as).Faithful h) :
    r.Faithful h ∧ SeesAppends h.hashBlockSize r.mmFeatures r.numTokens (as.map List.length) := by
  induction as generalizing r with
  | nil => exact ⟨hf, trivial⟩
  | cons a as ih =>
    obtain ⟨hf', hs⟩ := ih (hr.append hB a) hf
    obtain ⟨hf, ha⟩ := hr.faithful_append_inv hB hinj hf'
    rw [mmFeatures_append, numTokens_append] at hs
    exact ⟨hf, (hr.seesFeatures_iff hB a).1 ha, hs⟩

end Request

/-! ### A free hash -/

/-- Hash values that are their own inputs: the hash function of this type has no collisions. -/
inductive FreeHash where
  | seed
  | block (parent : FreeHash) (tokens : List TokenId) (extraKeys : Option (List ExtraKey))
deriving DecidableEq, Repr

def FreeHash.hasher (hashBlockSize : Nat) : BlockHasher FreeHash where
  hashBlockSize
  hashFn
    | .seed => .seed
    | .block parent tokens extraKeys => .block parent tokens extraKeys

theorem FreeHash.hasher_injective (n : Nat) : Function.Injective (FreeHash.hasher n).hashFn := by
  intro x y hxy
  cases x <;> cases y <;> simp_all [FreeHash.hasher]

namespace Request
variable {h : BlockHasher η}

/-- The list built by the prompt and any sequence of appends is the list a single call over the final
tokens builds, exactly when no feature but the last overlaps a block completed by a call that resumes.
The single call keys every block by all features that overlap it. -/
theorem incremental_hashes_eq_scratch_iff {a : Args η} {r₀ : Request η} (hinit : Request.init a = .ok r₀)
    (hh : a.blockHasher = some h) (hB : 0 < h.hashBlockSize) (hno : NonOverlapping a.mmFeatures)
    (as : List (List TokenId)) : h.hash { r₀.appendAll as with blockHashes := [] } =
      h.chain (r₀.appendAll as).allTokenIds (r₀.appendAll as).blockKeys
        ((r₀.appendAll as).numTokens / h.hashBlockSize) 0 none ∧
    (SeesAppends h.hashBlockSize a.mmFeatures r₀.numTokens (as.map List.length) →
      (r₀.appendAll as).blockHashes = h.hash { r₀.appendAll as with blockHashes := [] }) ∧
    (Function.Injective h.hashFn →
      ((r₀.appendAll as).blockHashes = h.hash { r₀.appendAll as with blockHashes := [] } ↔
        SeesAppends h.hashBlockSize a.mmFeatures r₀.numTokens (as.map List.length))) := by
  obtain ⟨hr, hf, hfs⟩ := Hashed.init hinit hh hB hno
  have hscratch : h.hash { r₀.appendAll as with blockHashes := [] } =
      h.chain (r₀.appendAll as).allTokenIds (r₀.appendAll as).blockKeys
        ((r₀.appendAll as).numTokens / h.hashBlockSize) 0 none :=
    hash_scratch (r := { r₀.appendAll as with blockHashes := [] }) hB
      (hr.appendAll hB).nonOverlapping rfl
  rw [hscratch, ← hfs]
  have hmp := hr.faithful_appendAll hB as hf
  exact ⟨rfl, hmp, fun hinj => ⟨fun he => (hr.seesAppends_of_faithful hB hinj he).2, hmp⟩⟩

/-- A six-token prompt with two one-token images in the block it leaves partial. -/
def twoImages : Args FreeHash where
  requestId := 0
  promptTokenIds := some [1, 2, 3, 4, 5, 6]
  samplingParams := some { maxTokens := 2 }
  mmFeatures := [⟨10, { offset := 4, length := 1 }⟩, ⟨11, { offset := 5, length := 1 }⟩]
  blockHasher := some (FreeHash.hasher 4)

def twoImagesEarly : Args FreeHash :=
  { twoImages with mmFeatures := [⟨10, { offset := 0, length := 1 }⟩, ⟨11, { offset := 1, length := 1 }⟩] }

theorem incremental_hashes_eq_scratch_twoImagesEarly :
    ∃ r₀, Request.init twoImagesEarly = .ok r₀ ∧ 0 < (FreeHash.hasher 4).hashBlockSize ∧
      NonOverlapping twoImagesEarly.mmFeatures ∧
      ((r₀.appendAll [[7, 8]]).blockHashes =
          (FreeHash.hasher 4).hash { r₀.appendAll [[7, 8]] with blockHashes := [] } ↔
        SeesAppends 4 twoImagesEarly.mmFeatures r₀.numTokens [2]) :=
  ⟨_, rfl, by decide, by decide,
    (incremental_hashes_eq_scratch_iff (a := twoImagesEarly) rfl rfl (by decide) (by decide) [[7, 8]]).2.2
      (FreeHash.hasher_injective 4)⟩

/-- The two generated tokens complete the second block, and the call that hashes it sees the second
image only. -/
theorem incremental_hashes_ne_scratch : ∃ r₀, Request.init twoImages = .ok r₀ ∧ NonOverlapping twoImages.mmFeatures ∧
      Function.Injective (FreeHash.hasher 4).hashFn ∧
      (r₀.appendAll [[7, 8]]).blockHashes ≠
        (FreeHash.hasher 4).hash { r₀.appendAll [[7, 8]] with blockHashes := [] } :=
  ⟨_, rfl, by decide, FreeHash.hasher_injective 4, by decide⟩

theorem Faithful.getLast? {r : Request η} {i : Nat} {x : η} (hr : r.Faithful h) (hi : r.blockHashes[i]? = some x) :
    (h.chain r.allTokenIds r.blockKeys (i + 1) 0 none).getLast? = some x := by
  have hlt := (List.getElem?_eq_some_iff.1 hi).1
  rw [hr] at hi hlt
  rw [length_chain] at hlt
  obtain ⟨n, hn⟩ := Nat.exists_eq_add_of_le hlt
  rw [hn, chain_append, getElem?_append_left (by simp)] at hi
  rwa [getLast?_eq_getElem?, length_chain]

/-- Without collisions, a hash that two requests share is at the same index in both, and up to there they have
the same tokens and extra keys. -/
theorem shared_hash_shared_prefix {r r' : Request η} (hinj : Function.Injective h.hashFn) (hr : r.Faithful h)
    (hr' : r'.Faithful h) {i j : Nat} {x : η} (hi : r.blockHashes[i]? = some x) (hj : r'.blockHashes[j]? = some x) :
    i = j ∧ ∀ k ≤ i, h.slice r.allTokenIds (k * h.hashBlockSize) = h.slice r'.allTokenIds (k * h.hashBlockSize) ∧
      r.blockKeys (k * h.hashBlockSize) (k * h.hashBlockSize + h.hashBlockSize) =
        r'.blockKeys (k * h.hashBlockSize) (k * h.hashBlockSize + h.hashBlockSize) := by
  have hlast := (hr.getLast? hi).trans (hr'.getLast? hj).symm
  have he := chain_eq_of_last hinj (congrArg (Option.getD · h.noneHash) hlast)
  obtain rfl : i = j := by simpa using congrArg List.length he
  exact ⟨rfl, fun k hk => by simpa using chain_inj hinj he (Nat.lt_succ_of_le hk)⟩

/-- Two whole blocks and a token of a third. -/
def fiveTokens (token : TokenId) : Request FreeHash where
  requestId := 0
  allTokenIds := [1, 2, 3, 4, token]
  blockHashes := [.block .seed [1, 2] none, .block (.block .seed [1, 2] none) [3, 4] none]

/-- The hash of the second block is shared, so both blocks are. -/
theorem shared_hash_shared_prefix_two : (fiveTokens 5).blockHashes[1]? = (fiveTokens 6).blockHashes[1]? ∧
    ∀ k ≤ 1, (FreeHash.hasher 2).slice [1, 2, 3, 4, 5] (k * 2) = (FreeHash.hasher 2).slice [1, 2, 3, 4, 6] (k * 2) := by
  have hf : ∀ t, (fiveTokens t).Faithful (FreeHash.hasher 2) := fun t => by
    simp [Faithful, fiveTokens, numTokens]
    rfl
  have hshared := shared_hash_shared_prefix (FreeHash.hasher_injective 2) (hf 5) (hf 6) (i := 1) (j := 1) rfl rfl
  exact ⟨rfl, fun k hk => (hshared.2 k hk).1⟩

end Request

end VllmCore
