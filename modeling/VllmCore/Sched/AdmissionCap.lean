import VllmCore.Sched.WindowRuns

/-! # The admission cap of recycling groups

`max_admission_blocks_per_request` reserves, for a request, the window and the tokens in flight. What a request
holds is the blocks from the first one that is not skipped to the last one that needs a slot, look-ahead slots
included. The two agree as long as a call asks for at most one token more than may be in flight; two look-ahead
tokens beyond a full budget are one block too many. -/

namespace VllmCore
open Except List
variable {η : Type} {res : Option (List (List BlockId))}

namespace KVCacheSpec
variable {s : KVCacheSpec} {pr pr' p q cap mif maxlen need : Nat}

/-- The groups that give blocks back while a request runs. -/
def recycling (s : KVCacheSpec) : Bool :=
  match s.kind with
  | .slidingWindow .. | .chunkedLocal _ => true
  | _ => false

theorem windowed_of_recycling (h : s.recycling = true) : s.windowed = true := by
  unfold recycling at h
  unfold windowed
  split at h <;> simp_all

theorem gapStart_of_recycling (h : s.recycling = true) (pr : Nat) : s.gapStart pr = 0 := by
  unfold recycling at h
  unfold gapStart
  split at h <;> simp_all

theorem skippedTo_mono (h : s.recycling = true) (hpq : p ≤ q) : s.skippedTo pr p ≤ s.skippedTo pr' q := by
  unfold recycling at h
  unfold skippedTo
  split at h
  · next w extra hk => simp only [hk]; omega
  · next c hk => simp only [hk]; exact Nat.mul_le_mul_right _ (Nat.div_le_div_right hpq)
  · cases h

theorem skippedTo_le (h : s.recycling = true) (hw : ∀ w extra, s.kind = .slidingWindow w extra → 0 < w) :
    s.skippedTo pr p ≤ p := by
  unfold recycling at h
  unfold skippedTo
  split at h
  · next w extra hk => simp only [hk]; have := hw w extra hk; omega
  · next c hk => simp only [hk]; exact Nat.div_mul_le_self p c
  · cases h

/-- A window has at least its own token, and a chunk is a positive number of whole blocks. -/
def Sound (s : KVCacheSpec) : Prop :=
  match s.kind with
  | .slidingWindow w _ => 0 < w
  | .chunkedLocal c => 0 < c ∧ s.blockSize ∣ c
  | _ => True

/-- The blocks behind the skipped ones, at every alignment of the processed tokens. -/
theorem cdiv_le_skipped_add_cap (hs : s.Sound) (hcap : s.maxAdmissionBlocksPerRequest mif maxlen = some cap)
    (hrec : s.recycling = true) (hneed : need ≤ p + mif + 1) (hlen : need ≤ maxlen) :
    cdiv need s.blockSize ≤ s.skippedTo pr p / s.blockSize + cap := by
  have hpos := s.blockSize_pos
  rw [cdiv_le_iff hpos, Nat.add_mul]
  cases hk : s.kind with
  | slidingWindow w extra =>
    simp only [maxAdmissionBlocksPerRequest, hk, Option.some.injEq] at hcap
    simp only [Sound, hk] at hs
    simp only [skippedTo, hk]
    have hcover : min (w - 1 + extra + mif) maxlen ≤ cdiv (min (w - 1 + extra + mif) maxlen) s.blockSize *
        s.blockSize :=
      (cdiv_le_iff hpos).1 (Nat.le_refl _)
    -- at most `blockSize - 1` tokens of the first retained block are skipped
    have hround := Nat.div_add_mod (p + 1 - w - extra) s.blockSize
    have hmod := Nat.mod_lt (p + 1 - w - extra) hpos
    rw [Nat.mul_comm] at hround
    rw [← hcap, Nat.succ_mul]
    omega
  | chunkedLocal c =>
    simp only [maxAdmissionBlocksPerRequest, hk, Option.some.injEq] at hcap
    simp only [Sound, hk] at hs
    obtain ⟨hc, hdvd⟩ := hs
    simp only [skippedTo, hk]
    have hcover : min (c + mif) maxlen ≤ cdiv (min (c + mif) maxlen) s.blockSize * s.blockSize :=
      (cdiv_le_iff hpos).1 (Nat.le_refl _)
    rw [← hcap, Nat.div_mul_cancel (hdvd.trans (Nat.dvd_mul_left c _))]
    have hround := Nat.div_add_mod p c
    have hmod := Nat.mod_lt p hc
    rw [Nat.mul_comm] at hround
    omega
  | _ => simp [recycling, hk] at hrec

end KVCacheSpec

/-! ### Tables -/

theorem NullsIn.grown {bs bs' : List BlockId} {a z n : Nat} (h : NullsIn bs a z) (hz : z ≤ max a bs.length)
    (hg : Grown bs bs' n) : NullsIn bs' a z := by
  obtain ⟨first, rest, rfl, hrest, hfirst⟩ := hg.blocks
  rcases hfirst with rfl | ⟨i, source, cow, h1, h2, h3, rfl⟩
  · exact h.append hz hrest
  · exact (h.set h1 h2 h3).append (by rwa [length_set]) hrest

def HeldWithin (lo cap : Nat) (bs : List BlockId) : Prop :=
  ∃ z ≤ bs.length, lo ≤ z ∧ NullsIn bs 0 z ∧ bs.length ≤ z + cap

namespace HeldWithin
variable {lo cap n : Nat} {bs bs' : List BlockId}

theorem nil (cap : Nat) : HeldWithin 0 cap [] := ⟨0, Nat.le_refl 0, Nat.le_refl 0, .nil _ _, Nat.zero_le _⟩

theorem forget (h : HeldWithin lo cap bs) : HeldWithin 0 cap bs := by
  obtain ⟨z, h1, -, h3⟩ := h
  exact ⟨z, h1, Nat.zero_le z, h3⟩

theorem grown (h : HeldWithin lo cap bs) (hg : Grown bs bs' n) (hn : n ≤ lo + cap) : HeldWithin lo cap bs' := by
  obtain ⟨z, hz, hlo, hnulls, hlen⟩ := h
  have hl := hg.length
  exact ⟨z, by omega, hlo, hnulls.grown (hz.trans (Nat.le_max_right ..)) hg, by omega⟩

theorem countP_le (h : HeldWithin lo cap bs) : bs.countP (· ≠ nullBlock) ≤ cap := by
  obtain ⟨z, hz, -, hnulls, hlen⟩ := h
  have hhead : (bs.take z).countP (· ≠ nullBlock) = 0 := by
    rw [countP_eq_zero]
    intro b hb
    obtain ⟨i, hi⟩ := mem_iff_getElem?.1 hb
    rw [getElem?_take] at hi
    split at hi
    · next hlt => simpa using (hnulls i b hi).2 ⟨Nat.zero_le i, hlt⟩
    · cases hi
  calc bs.countP (· ≠ nullBlock) = (bs.take z).countP (· ≠ nullBlock) + (bs.drop z).countP (· ≠ nullBlock) := by
        rw [← countP_append, take_append_drop]
    _ ≤ (bs.drop z).length := by rw [hhead, Nat.zero_add]; exact countP_le_length
    _ ≤ cap := by rw [length_drop]; omega

end HeldWithin

namespace Manager
variable {m m' : Manager η} {p p' : BlockPool η} {r : RequestId} {cap n pr : Nat}

theorem getNumSkippedTokens_eq (h : m.spec.recycling = true) (pr n : Nat) :
    m.getNumSkippedTokens n = m.spec.skippedTo pr n := by
  unfold KVCacheSpec.recycling at h
  unfold getNumSkippedTokens KVCacheSpec.skippedTo
  split at h
  · next w extra hk => simp only [hk]
  · next c hk => simp only [hk]
  · cases h

theorem removeSkippedBlocks_heldWithin (pr : Nat) {np : Option Nat} (hrec : m.spec.recycling = true)
    (hstep : m.removeSkippedBlocks p r n np = .ok (m', p')) (hheld : ∀ x, HeldWithin 0 cap (m.blocksOf x)) :
    (m'.blocksOf r).length = (m.blocksOf r).length ∧
      HeldWithin (min (m.spec.skippedTo pr n / m.spec.blockSize) (m.blocksOf r).length) cap (m'.blocksOf r) ∧
      ∀ x, HeldWithin 0 cap (m'.blocksOf x) := by
  have hrswa : ∀ w, m.spec.kind ≠ .rswa w := fun w hk => by simp [KVCacheSpec.recycling, hk] at hrec
  have hnp : np = some pr ∨ ∀ w, m.spec.kind ≠ .rswa w := .inr hrswa
  obtain ⟨-, hb⟩ := removeSkippedBlocks_blocksOf (KVCacheSpec.windowed_of_recycling hrec) hnp hstep
  rw [KVCacheSpec.gapStart_of_recycling hrec] at hb
  generalize he : min (m.spec.skippedTo pr n / m.spec.blockSize) (m.blocksOf r).length = e at hb
  have hr := hb r
  rw [if_pos rfl] at hr
  have hwithin : HeldWithin e cap (m'.blocksOf r) := by
    obtain ⟨z, hz, -, hnulls, hlen⟩ := hheld r
    rw [hr]
    refine ⟨max z e, ?_, Nat.le_max_right .., hnulls.removeLoop (by omega), ?_⟩
    · rw [length_removeLoop]; omega
    · rw [length_removeLoop]; omega
  refine ⟨by rw [hr, length_removeLoop], hwithin, fun x => ?_⟩
  by_cases hx : x = r
  · rw [hx]; exact hwithin.forget
  · rw [hb, if_neg hx]; exact hheld x

theorem WithComputed.heldWithin {hits bs : List BlockId} {nl ne lo : Nat} (h : m.WithComputed hits nl ne bs)
    (hhits : hits.length ≤ cdiv (nl + ne) m.spec.blockSize) (hhead : ∃ z ≤ hits.length, NullsIn hits 0 z)
    (hlo : lo = m.getNumSkippedTokens (nl + ne) / m.spec.blockSize)
      (hcap : cdiv (nl + ne) m.spec.blockSize ≤ lo + cap) :
    HeldWithin lo cap bs := by
  obtain ⟨ext, hext, rfl, hlen⟩ := h
  obtain ⟨z, hz, hnulls⟩ := hhead
  have hpad : m.paddedHits hits (nl + ne) = List.replicate lo nullBlock ++ hits.drop lo := by rw [paddedHits, ← hlo]
  have hplen : (m.paddedHits hits (nl + ne)).length = lo + (hits.length - lo) := by
    rw [hpad, length_append, length_replicate, length_drop]
  have hpnull : NullsIn (m.paddedHits hits (nl + ne)) 0 (max lo z) := hpad ▸ hnulls.pad lo
  refine ⟨max lo z, ?_, Nat.le_max_left .., hpnull.append ?_ hext, ?_⟩
  · rw [length_append]; omega
  · omega
  · omega

end Manager

namespace KVCacheManager
variable [DecidableEq η] {k k' : KVCacheManager η} {request : Request η} {a : AllocArgs} {m : Manager η}
  {g cap mif : Nat}
  {R : BlockId → Nat}

/-- What the scheduler promises of a call for the group: the number of tokens in flight is one; a request without
new hits has a table for its processed tokens; new computed tokens fit into the model length; hits are null at their
head only, and not longer than the tokens they stand for. -/
structure Covered (m : Manager η) (g : Nat) (k : KVCacheManager η) (request : Request η) (a : AllocArgs) : Prop where
  inFlight : 0 ≤ request.numInFlightTokens
  table : ¬ (a.newComputedBlocks.isSome ∨ a.numExternalComputedTokens > 0) ∨
      k.coordinator.tracks request.requestId = true →
    k.processedTokens request a ≤ (m.blocksOf request.requestId).length * m.spec.blockSize
  bounded : a.newComputedBlocks.isSome ∨ a.numExternalComputedTokens > 0 →
    numLocalComputedTokens request a + a.numExternalComputedTokens ≤ k.maxModelLen
  hits : ∀ hits ∈ a.newComputedBlocks, ∀ bs, hits[g]? = some bs →
    bs.length ≤ cdiv (numLocalComputedTokens request a) m.spec.blockSize ∧ ∃ z ≤ bs.length, NullsIn bs 0 z

omit [DecidableEq η] in
theorem Covered.head {bs : List BlockId} (h : Covered m g k request a)
    (hbs : (a.newComputedBlocks.getD k.emptyKvCacheBlocks)[g]? = some bs) :
    bs.length ≤ cdiv (numLocalComputedTokens request a) m.spec.blockSize ∧ ∃ z ≤ bs.length, NullsIn bs 0 z := by
  cases hc : a.newComputedBlocks with
  | none =>
    rw [hc, Option.getD_none, emptyKvCacheBlocks, getElem?_map, Option.map_eq_some_iff] at hbs
    obtain ⟨_, -, rfl⟩ := hbs
    exact ⟨Nat.zero_le _, 0, Nat.le_refl 0, .nil _ _⟩
  | some hits =>
    rw [hc, Option.getD_some] at hbs
    exact h.hits hits (by simp [hc]) bs hbs

omit [DecidableEq η] in
theorem numTokensNeedSlot_le (h : 0 ≤ request.numInFlightTokens) : k.numTokensNeedSlot request a ≤
      k.processedTokens request a + (request.numInFlightTokens.toNat + a.numNewTokens + a.numLookaheadTokens) := by
  unfold numTokensNeedSlot numTokensMainModel processedTokens
  omega

theorem allocateSlots_heldWithin (h : k.allocateSlots request a = .ok (res, k'))
    (ha : k.pool.Accounts (Coordinator.heldBy k.coordinator.managers + R)) (hg : k.coordinator.managers[g]? = some m)
    (hrec : m.spec.recycling = true) (hs : m.spec.Sound)
    (hcap : m.spec.maxAdmissionBlocksPerRequest mif k.maxModelLen = some cap) (hcov : Covered m g k request a)
    (hfits : k.numTokensNeedSlot request a ≤ k.processedTokens request a + mif + 1)
    (hheld : ∀ x, HeldWithin 0 cap (m.blocksOf x)) :
    ∃ m', k'.coordinator.managers[g]? = some m' ∧ m'.spec = m.spec ∧ ∀ x, HeldWithin 0 cap (m'.blocksOf x) := by
  have hw := KVCacheSpec.windowed_of_recycling hrec
  obtain ⟨m', hm', hs', hcase⟩ := allocateSlots_table h ha hg (KVCacheSpec.growing_of_windowed hw)
  refine ⟨m', hm', hs', ?_⟩
  rcases hcase with ⟨-, rfl⟩ | ⟨m₁, q, q', hrem, hs₁, hcase⟩
  · exact hheld
  obtain ⟨hlen₁, hheld₁, hall₁⟩ :=
    Manager.removeSkippedBlocks_heldWithin request.numPromptTokens hrec hrem hheld
  rcases hcase with ⟨-, rfl⟩ | ⟨-, hx, bs, hbs, hgrown⟩
  · exact hall₁
  have hblocks : cdiv (k.numTokensNeedSlot request a) m.spec.blockSize ≤
      m.spec.skippedTo request.numPromptTokens (k.processedTokens request a) / m.spec.blockSize + cap :=
    KVCacheSpec.cdiv_le_skipped_add_cap hs hcap hrec hfits (Nat.min_le_right ..)
  have hr : HeldWithin 0 cap (m'.blocksOf request.requestId) := by
    generalize hold : m₁.blocksOf request.requestId = old at hbs
    cases hbs with
    | kept hkept =>
      -- the table reaches beyond what is skipped
      have hskip : m.spec.skippedTo request.numPromptTokens (k.processedTokens request a) / m.spec.blockSize ≤
          (m.blocksOf request.requestId).length := by
        refine Nat.div_le_of_le_mul ?_
        rw [Nat.mul_comm]
        exact (KVCacheSpec.skippedTo_le hrec (by
          intro w extra hk
          simpa only [KVCacheSpec.Sound, hk] using hs)).trans (hcov.table hkept)
      rw [Nat.min_eq_left hskip, hold] at hheld₁
      exact (hheld₁.grown hgrown hblocks).forget
    | added hhits hnew hbs =>
      obtain ⟨hhlen, hhead⟩ := hcov.head hhits
      have hbound := hcov.bounded hnew
      have hle : numLocalComputedTokens request a + a.numExternalComputedTokens ≤ k.numTokensNeedSlot request a := by
        unfold numTokensNeedSlot numTokensMainModel totalComputedTokens
        omega
      have hmono : m.spec.skippedTo request.numPromptTokens (k.processedTokens request a) / m.spec.blockSize ≤
          m.getNumSkippedTokens (numLocalComputedTokens request a + a.numExternalComputedTokens) /
            m.spec.blockSize := by
        rw [Manager.getNumSkippedTokens_eq hrec request.numPromptTokens]
        refine Nat.div_le_div_right (KVCacheSpec.skippedTo_mono hrec ?_)
        have := hcov.inFlight
        unfold processedTokens totalComputedTokens
        omega
      have hcdiv := cdiv_mono (k := m.spec.blockSize) hle
      have hheld₂ : HeldWithin _ cap bs :=
        hbs.heldWithin (hhlen.trans (cdiv_mono (Nat.le_add_right ..))) hhead rfl (by omega)
      exact (hheld₂.grown hgrown (by omega)).forget
  intro x
  by_cases hxr : x = request.requestId
  · rw [hxr]; exact hr
  · rw [hx x hxr]; exact hall₁ x

/-! ### Runs -/

theorem allocateSlots_maxModelLen (h : k.allocateSlots request a = .ok (res, k')) : k'.maxModelLen = k.maxModelLen := by
  simp only [allocateSlots, bind_eq_ok] at h
  obtain ⟨-, -, ⟨fits, c₁⟩, -, h⟩ := h
  dsimp only at h
  split at h
  · cases pure_eq_ok.1 h; rfl
  simp only [bind_eq_ok] at h
  obtain ⟨c₂, -, ⟨n, c₃⟩, -, h⟩ := h
  dsimp only at h
  split at h
  · cases pure_eq_ok.1 h; rfl
  simp only [do_eq_ok] at h
  obtain ⟨_, -, _, -, _, -, he⟩ := h
  cases he
  rfl

omit [DecidableEq η] in
theorem init_maxModelLen {cfg : Coordinator.KVCacheConfig} {o : Coordinator.KVCacheOptions} {wm : Nat} {f : Bool}
    (h : KVCacheManager.init cfg o wm f = .ok k) : k.maxModelLen = o.maxModelLen := by
  simp only [KVCacheManager.init, do_eq_ok] at h
  obtain ⟨c, -, rfl⟩ := h
  rfl

theorem UpkeepStep.maxModelLen {s s' : RefState η} (h : UpkeepStep s s') :
    s'.manager.maxModelLen = s.manager.maxModelLen := by
  cases h with
  | free r h =>
    simp only [KVCacheManager.free, do_eq_ok] at h
    obtain ⟨_, -, rfl⟩ := h
    rfl
  | freePopped u v bs bs' hs hperm h | freeRetained u v bs bs' hs hperm h =>
    simp only [KVCacheManager.freeBlocks, do_eq_ok] at h
    obtain ⟨_, -, rfl⟩ := h
    rfl
  | cacheBlocks request n h =>
    unfold KVCacheManager.cacheBlocks at h
    split at h
    · simp only [do_eq_ok] at h
      obtain ⟨_, -, rfl⟩ := h
      rfl
    · cases h; rfl
  | evictBlocks ids h =>
    simp only [KVCacheManager.evictBlocks, do_eq_ok] at h
    obtain ⟨_, -, rfl⟩ := h
    rfl
  | recordBlocksForZeroing r n h =>
    obtain ⟨f, -, rfl⟩ := recordBlocksForZeroing_eq h
    rfl
  | popBlocksForFree | reserve | takeCopies | resetPrefixCache | newStepStarts | takeNewBlockIds |
    takeBoundaryStateOffloads | finalizePartialTailOffloads => rfl

theorem RefStep.maxModelLen {s s' : RefState η} (h : RefStep s s') :
    s'.manager.maxModelLen = s.manager.maxModelLen := by
  cases h with
  | allocateSlots request a res h => exact allocateSlots_maxModelLen h
  | removeSkippedBlocks r n prompt h =>
    simp only [KVCacheManager.removeSkippedBlocks, do_eq_ok] at h
    obtain ⟨_, -, rfl⟩ := h
    rfl
  | recycleSlidingWindows request h =>
    simp only [KVCacheManager.recycleSlidingWindows, do_eq_ok] at h
    obtain ⟨_, -, rfl⟩ := h
    rfl
  | upkeep h => exact h.maxModelLen

/-- The steps of a run in which no call of `allocate_slots` asks for more than one token beyond `mif`. -/
inductive CapStep (g mif : Nat) : RefState η → RefState η → Prop
  | allocateSlots {s : RefState η} {k' : KVCacheManager η} (request : Request η) (a : AllocArgs)
      (res : Option (List (List BlockId)))
      (hcov : ∀ m, s.manager.coordinator.managers[g]? = some m → Covered m g s.manager request a)
      (hfits : s.manager.numTokensNeedSlot request a ≤ s.manager.processedTokens request a + mif + 1)
      (h : s.manager.allocateSlots request a = .ok (res, k')) : CapStep g mif s { s with manager := k' }
  | removeSkippedBlocks {s : RefState η} {k' : KVCacheManager η} (r : RequestId) (n : Nat) (prompt : Option Nat)
      (h : s.manager.removeSkippedBlocks r n prompt = .ok k') : CapStep g mif s { s with manager := k' }
  | recycleSlidingWindows {s : RefState η} {k' : KVCacheManager η} (request : Request η)
      (h : s.manager.recycleSlidingWindows request = .ok k') : CapStep g mif s { s with manager := k' }
  | upkeep {s s' : RefState η} (h : UpkeepStep s s') : CapStep g mif s s'

def RefState.Capped (s : RefState η) (g : Nat) (spec : KVCacheSpec) (maxModelLen cap : Nat) : Prop :=
  s.Accounted ∧ s.manager.maxModelLen = maxModelLen ∧ ∃ m, s.manager.coordinator.managers[g]? = some m ∧
    m.spec = spec ∧ ∀ x, HeldWithin 0 cap (m.blocksOf x)

theorem CapStep.capped {s s' : RefState η} {spec : KVCacheSpec} {maxlen : Nat} (h : CapStep g mif s s')
    (hrec : spec.recycling = true) (hs : spec.Sound) (hcap : spec.maxAdmissionBlocksPerRequest mif maxlen = some cap)
    (hc : s.Capped g spec maxlen cap) : s'.Capped g spec maxlen cap := by
  obtain ⟨ha, hlen, m, hm, rfl, hheld⟩ := hc
  cases h with
  | allocateSlots request a res hcov hfits h =>
    have hstep : RefStep s { s with manager := _ } := .allocateSlots request a res h
    rw [← hlen] at hcap
    obtain ⟨m', hm', hs', hheld'⟩ := allocateSlots_heldWithin h ha hm hrec hs hcap (hcov m hm) hfits hheld
    exact ⟨hstep.accounted ha, hstep.maxModelLen.trans hlen, m', hm', hs', hheld'⟩
  | removeSkippedBlocks r n prompt h =>
    have hstep : RefStep s { s with manager := _ } := .removeSkippedBlocks r n prompt h
    refine ⟨hstep.accounted ha, hstep.maxModelLen.trans hlen, ?_⟩
    simp only [KVCacheManager.removeSkippedBlocks, do_eq_ok] at h
    obtain ⟨c, hc, rfl⟩ := h
    obtain ⟨m', q, q', hm', hrem⟩ := Coordinator.removeSkippedBlocks_at hc ha hm
    exact ⟨m', hm', (Manager.removeSkippedBlocks_works hrem).1.spec,
      (Manager.removeSkippedBlocks_heldWithin 0 hrec hrem hheld).2.2⟩
  | recycleSlidingWindows request h =>
    have hstep : RefStep s { s with manager := _ } := .recycleSlidingWindows request h
    refine ⟨hstep.accounted ha, hstep.maxModelLen.trans hlen, ?_⟩
    obtain ⟨m', q, q', hm', ⟨-, hrem⟩ | rfl⟩ := recycleSlidingWindows_at h ha hm
    · exact ⟨m', hm', (Manager.removeSkippedBlocks_works hrem).1.spec,
        (Manager.removeSkippedBlocks_heldWithin 0 hrec hrem hheld).2.2⟩
    · exact ⟨m', hm', rfl, hheld⟩
  | upkeep h =>
    obtain ⟨m', hm', hs', hb'⟩ := h.keepsTables hm
    refine ⟨h.accounted ha, h.maxModelLen.trans hlen, m', hm', hs', fun x => ?_⟩
    rcases hb' x with hb | hb
    · rw [hb]; exact hheld x
    · rw [hb]; exact .nil cap

/-- In a run whose calls ask for at most one token more than may be in flight, no request ever holds more blocks of
a sliding-window or chunked-local group than its admission cap. -/
theorem heldBlocks_le_cap {cfg : Coordinator.KVCacheConfig} {o : Coordinator.KVCacheOptions} {wm : Nat} {f : Bool}
    (hinit : KVCacheManager.init cfg o wm f = .ok k) (hm : k.coordinator.managers[g]? = some m)
    (hrec : m.spec.recycling = true) (hs : m.spec.Sound)
    (hcap : m.spec.maxAdmissionBlocksPerRequest o.maxInFlightTokens o.maxModelLen = some cap) {s : RefState η}
    (hrun : Relation.ReflTransGen (CapStep g o.maxInFlightTokens) ⟨k, [], []⟩ s) :
    ∃ m', s.manager.coordinator.managers[g]? = some m' ∧ m'.spec = m.spec ∧
      ∀ r, (m'.blocksOf r).countP (· ≠ nullBlock) ≤ cap := by
  have hstart : RefState.Capped ⟨k, [], []⟩ g m.spec o.maxModelLen cap := by
    refine ⟨init_accounted hinit, init_maxModelLen hinit, m, hm, rfl, fun x => ?_⟩
    rw [init_table hinit (mem_of_getElem? hm)]
    exact .nil cap
  have hend : s.Capped g m.spec o.maxModelLen cap := by
    induction hrun with
    | refl => exact hstart
    | tail _ hstep ih => exact hstep.capped hrec hs hcap ih
  obtain ⟨-, -, m', hm', hs', hheld⟩ := hend
  exact ⟨m', hm', hs', fun r => (hheld r).countP_le⟩

/-- A budget of three tokens, blocks of two tokens and a window of two: the cap is three blocks. -/
def cappedCache : Coordinator.KVCacheConfig where
  numBlocks := 9
  groups := [⟨⟨2, .slidingWindow 2 0, Nat.two_pos, 0⟩, false⟩]

def cappedOptions : Coordinator.KVCacheOptions where
  maxModelLen := 16
  maxInFlightTokens := 3
  enableCaching := false
  schedulerBlockSize := 2
  hashBlockSize := 2

/-- A prompt of ten tokens of which the first are computed. -/
def chunked (numComputedTokens : Nat) : Request Nat :=
  { requestId := 1, allTokenIds := [1, 2, 3, 4, 5, 6, 7, 8, 9, 10], numPromptTokens := 10, numComputedTokens }

theorem covered_chunked {k : KVCacheManager Nat} {m : Manager Nat} {n : Nat}
    (hlen : n ≤ (m.blocksOf 1).length * m.spec.blockSize) :
    Covered m 0 k (chunked n) { numNewTokens := 3, numLookaheadTokens := 1 } := by
  refine ⟨Int.le_refl 0, fun _ => ?_, ?_, nofun⟩
  · refine le_trans ?_ hlen
    simp only [processedTokens, totalComputedTokens, numLocalComputedTokens, chunked]
    omega
  · rintro (h | h)
    · cases h
    · cases h

/-- Three chunks of three tokens, each with one look-ahead token: the third needs all the blocks of the cap. -/
theorem heldBlocks_le_cap_three : ∃ (s : RefState Nat) (m : Manager Nat), s.manager.coordinator.managers[0]? = some m ∧
    m.blocksOf 1 = [nullBlock, nullBlock, 1, 3, 2] ∧ ∃ m', s.manager.coordinator.managers[0]? = some m' ∧
      m'.spec = ⟨2, .slidingWindow 2 0, by decide, 0⟩ ∧ ∀ r, (m'.blocksOf r).countP (· ≠ nullBlock) ≤ 3 := by
  have hfits : ∀ (k : KVCacheManager Nat) (n : Nat), k.numTokensNeedSlot (chunked n)
      { numNewTokens := 3, numLookaheadTokens := 1 } ≤ k.processedTokens (chunked n)
        { numNewTokens := 3, numLookaheadTokens := 1 } + 3 + 1 :=
    fun k n => numTokensNeedSlot_le (Int.le_refl 0)
  have hrun : ∃ (k : KVCacheManager Nat) (m₀ : Manager Nat) (s : RefState Nat) (m : Manager Nat),
      KVCacheManager.init cappedCache cappedOptions 0 false = .ok k ∧ k.coordinator.managers[0]? = some m₀ ∧
      m₀.spec = ⟨2, .slidingWindow 2 0, Nat.two_pos, 0⟩ ∧ Relation.ReflTransGen (CapStep 0 3) ⟨k, [], []⟩ s ∧
      s.manager.coordinator.managers[0]? = some m ∧
      m.blocksOf 1 = [nullBlock, nullBlock, 1, 3, 2] := by
    refine ⟨_, _, _, _, rfl, rfl, rfl, .tail (.tail (.single (.allocateSlots (chunked 0) _ _ ?_ (hfits _ 0) rfl))
      (.allocateSlots (chunked 3) _ _ ?_ (hfits _ 3) rfl)) (.allocateSlots (chunked 6) _ _ ?_ (hfits _ 6) rfl),
      rfl, rfl⟩
    all_goals
      rintro m ⟨⟩
      exact covered_chunked (by decide)
  obtain ⟨k, m₀, s, m, hinit, hm₀, hspec, hrun, hm, hblocks⟩ := hrun
  have hthree : m₀.spec.maxAdmissionBlocksPerRequest cappedOptions.maxInFlightTokens cappedOptions.maxModelLen =
      some 3 := by rw [hspec]; rfl
  have hcap := heldBlocks_le_cap hinit hm₀ (by rw [hspec]; rfl) (by rw [hspec]; exact Nat.two_pos) hthree hrun
  rw [hspec] at hcap
  exact ⟨s, m, hm, hblocks, hcap⟩

end KVCacheManager

namespace Engine

def lookaheadConfig : SchedulerConfig where
  maxNumRunningReqs := 4
  maxNumScheduledTokens := 3
  maxNumBatchedTokens := 3
  maxModelLen := 16
  maxInFlightTokens := 3
  blockSize := 2
  cacheBlockSize := 2
  hashBlockSize := 2
  enablePrefixCaching := false
  numSpecTokens := 2
  numLookaheadTokens := 2

def chunkedPrefill : List (EngineOp Nat) :=
  [.addRequest {} { requestId := 1, promptTokenIds := some [1, 2, 3, 4, 5, 6, 7, 8, 9, 10],
                    samplingParams := some { maxTokens := 4 } },
    .schedule {}, .updateFromOutput {}, .schedule {}, .updateFromOutput {}, .schedule {}]

/-- With two look-ahead tokens the third chunk holds four blocks. -/
theorem lookahead_exceeds_cap : ∃ e₀ e m, Engine.init lookaheadConfig KVCacheManager.cappedCache = .ok e₀ ∧
    e₀.run chunkedPrefill = .ok e ∧ e.scheduler.kvCacheManager.coordinator.managers[0]? = some m ∧
    m.spec.maxAdmissionBlocksPerRequest lookaheadConfig.maxInFlightTokens lookaheadConfig.maxModelLen = some 3 ∧
    m.blocksOf 1 = [nullBlock, nullBlock, 3, 1, 2, 4] ∧ (m.blocksOf 1).countP (· ≠ nullBlock) = 4 := by
  exact ⟨_, _, _, rfl, rfl, rfl, rfl, rfl, rfl⟩

end Engine

end VllmCore
