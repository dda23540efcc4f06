import VllmCore.Sched.Plan

/-! # The chunks of a Mamba prefill

In align mode a state is cached where a chunk ends, so chunks end at block boundaries, at the last
hash boundary of the prompt and at the junction with a shared prefix. A chunk with a checkpoint inside
has no stop at the next block boundary and none at the tail, and its junction is rounded down by counting
blocks from the start: the chunks end well exactly if that never misplaces the junction. -/

namespace VllmCore
open List
variable {η : Type}

/-! ### One cut, in the integers -/

def firstStop (stops : List Int) (a e : Int) : Int := ((stops.filter fun x => decide (a < x ∧ x < e)).min?).getD e

theorem firstStop_spec (stops : List Int) (a e : Int) :
    (firstStop stops a e = e ∨ firstStop stops a e ∈ stops ∧ a < firstStop stops a e ∧ firstStop stops a e < e) ∧
      ∀ x ∈ stops, a < x → x < e → firstStop stops a e ≤ x := by
  unfold firstStop
  cases hmin : (stops.filter fun x => decide (a < x ∧ x < e)).min? with
  | none =>
    rw [min?_eq_none_iff, filter_eq_nil_iff] at hmin
    exact ⟨.inl rfl, fun x hx h1 h2 => absurd (decide_eq_true ⟨h1, h2⟩) (hmin x hx)⟩
  | some y =>
    obtain ⟨hy, hle⟩ := min?_eq_some_iff.1 hmin
    simp only [mem_filter, decide_eq_true_eq] at hy hle
    exact ⟨.inr hy, fun x hx h1 h2 => hle x ⟨hx, h1, h2⟩⟩

section
variable {B : Int}

theorem floor_spec (hB : 0 < B) (x : Int) : B ∣ x / B * B ∧ x / B * B + x % B = x ∧ 0 ≤ x % B ∧ x % B < B := by
  refine ⟨Int.dvd_mul_left .., ?_, Int.emod_nonneg x hB.ne', Int.emod_lt_of_pos x hB⟩
  rw [Int.mul_comm, Int.mul_ediv_add_emod]

theorem add_le_of_dvd {x y : Int} (hx : B ∣ x) (hy : B ∣ y) (h : x < y) : x + B ≤ y := by
  have := Int.le_of_dvd (Int.sub_pos_of_lt h) (Int.dvd_sub hy hx)
  omega

/-- The junction, or the block boundary before it; 0 unless it is before `P`. -/
def junctionStop (B P J : Int) (fine : Prop) [Decidable fine] : Int :=
  if J < P then if fine then J else J / B * B else 0

/-- A chunk from `a` with a budget up to `N`, for block size `B`, prefill end `P` and junction `J`. -/
theorem cut_spec (hB : 0 < B) (a N P J L T : Int) (fine wide : Prop) [Decidable fine] [Decidable wide] (hL : B ∣ L)
    (ha : 0 ≤ a) (haN : a < N) {e b : Int} (he : e = if N < P ∧ (N / B * B > a ∨ wide) then N / B * B else N)
    (hb : b = firstStop [if a % B ≠ 0 then (a / B + 1) * B else 0, L, T,
      if a < J ∧ J < e then if fine then J else a + (J - a) / B * B else 0] a e) :
    (a < b → B ∣ b ∨ b = T ∨ b = junctionStop B P J fine ∨ P ≤ b ∨ b < a + B ∧ ¬ wide) ∧ (a < T → b ≤ T) ∧
      (a < junctionStop B P J fine → b ≤ junctionStop B P J fine) ∧ ((a / B + 1) * B ≤ N ∨ P ≤ N → a < b) := by
  obtain ⟨hend, hfirst⟩ := firstStop_spec [if a % B ≠ 0 then (a / B + 1) * B else 0, L, T,
    if a < J ∧ J < e then if fine then J else a + (J - a) / B * B else 0] a e
  rw [← hb] at hend hfirst
  clear hb
  simp only [mem_cons, not_mem_nil, or_false, forall_eq_or_imp, forall_eq, Int.add_mul, Int.one_mul] at hend hfirst ⊢
  obtain ⟨hnext, -, htail, hjunction⟩ := hfirst
  obtain ⟨hda, ha1, ha2, ha3⟩ := floor_spec hB a
  obtain ⟨hdN, hN1, hN2, hN3⟩ := floor_spec hB N
  obtain ⟨hdJ, hJ1, hJ2, hJ3⟩ := floor_spec hB J
  obtain ⟨hdK, hK1, hK2, hK3⟩ := floor_spec hB (J - a)
  -- the block boundary before the junction, next to those after `a` and before `N`
  have hafter := add_le_of_dvd hda hdJ
  have hbelow := add_le_of_dvd hdN hdJ
  have habove := add_le_of_dvd hdJ hdN
  -- from a block boundary on it is found by counting blocks from `a`; from another start the next boundary is first
  have hstep : 0 < (J - a) / B * B → B ≤ (J - a) / B * B := fun h => Int.le_of_dvd h hdK
  have hsame : a % B = 0 → a + (J - a) / B * B = J / B * B := by
    intro h
    have hdvd := Int.dvd_add (Int.dvd_of_emod_eq_zero h) hdK
    have h1 := add_le_of_dvd hdvd hdJ
    have h2 := add_le_of_dvd hdJ hdvd
    omega
  have hbudget : e = N / B * B ∧ N < P ∨ e = N ∧ (P ≤ N ∨ N / B * B ≤ a ∧ ¬ wide) := by
    split at he
    · next h => exact .inl ⟨he, h.1⟩
    · next h => exact .inr ⟨he, by grind⟩
  clear he
  have hbe : b ≤ e := by rcases hend with h | ⟨-, -, h⟩ <;> omega
  refine ⟨fun hab => ?_, fun h => ?_, fun h => ?_, fun h => ?_⟩
  · rcases hend with rfl | ⟨h | rfl | rfl | h, -, hlt⟩
    · clear hnext htail hjunction
      rcases hbudget with ⟨rfl, -⟩ | ⟨rfl, h | h⟩
      · exact .inl hdN
      · exact .inr (.inr (.inr (.inl h)))
      · exact .inr (.inr (.inr (.inr ⟨by omega, h.2⟩)))
    · split at h
      · exact .inl (h ▸ Int.dvd_add hda (Int.dvd_refl B))
      · omega
    · exact .inl hL
    · exact .inr (.inl rfl)
    · clear htail hjunction
      unfold junctionStop
      grind
  · by_cases hTe : T < e
    · exact htail h hTe
    · exact hbe.trans (Int.not_lt.1 hTe)
  · unfold junctionStop at h ⊢
    grind
  · clear hnext htail hjunction
    have := add_le_of_dvd hda hdN
    omega

/-- A chunk from `a` to `N` with a checkpoint inside keeps the junction: it starts at a block boundary, or the
junction is taken as it is, or it is before the next block boundary; or it is past the prefill and counting
blocks from `a` does not end the chunk earlier. -/
def JunctionKept (B P J a N : Int) (fine : Prop) : Prop :=
  B ∣ a ∨ fine ∨ J / B * B ≤ a ∨ P ≤ J ∧ (J < a + B ∨ N ≤ J ∨ P ≤ a + (J - a) / B * B)

theorem firstStop_single (x a e : Int) (ha : 0 ≤ a) :
    firstStop [0, 0, 0, x] a e = if a < x ∧ x < e then x else e := by
  have h0 : ¬ (a < 0 ∧ 0 < e) := by omega
  by_cases h : a < x ∧ x < e <;> simp [firstStop, h0, h]

/-- A checkpoint inside the chunk leaves the junction as its only stop. -/
theorem checkpoint_cut_iff (hB : 0 < B) (a N P J : Int) (fine sub : Prop) [Decidable fine] (ha : 0 ≤ a) (haP : a < P)
    (hN : P ≤ N) {b : Int}
    (hb : b = firstStop [0, 0, 0, if a < J ∧ J < N then if fine then J else a + (J - a) / B * B else 0] a N) :
    a < b ∧ ((B ∣ b ∨ b = junctionStop B P J fine ∨ P ≤ b ∨ b < a + B ∧ sub) ∧
      (a < junctionStop B P J fine → b ≤ junctionStop B P J fine) ↔ JunctionKept B P J a N fine) := by
  rw [firstStop_single _ _ _ ha] at hb
  obtain ⟨hda, ha1, ha2, ha3⟩ := floor_spec hB a
  obtain ⟨hdJ, hJ1, hJ2, hJ3⟩ := floor_spec hB J
  obtain ⟨hdK, hK1, hK2, hK3⟩ := floor_spec hB (J - a)
  by_cases hfine : fine
  · simp only [hfine, JunctionKept, junctionStop, if_true, true_or, or_true, iff_true] at hb ⊢
    grind
  simp only [hfine, JunctionKept, junctionStop, if_false, false_or] at hb ⊢
  have hafter := add_le_of_dvd hda hdJ
  have hstep : 0 < (J - a) / B * B → B ≤ (J - a) / B * B := fun h => Int.le_of_dvd h hdK
  by_cases hdvd : B ∣ a
  · have hsum := Int.dvd_add hdvd hdK
    have h1 := add_le_of_dvd hsum hdJ
    have h2 := add_le_of_dvd hdJ hsum
    simp only [hdvd, true_or, iff_true]
    grind
  · have hsum : ¬ B ∣ a + (J - a) / B * B := fun h => hdvd ((Int.dvd_add_left hdK).1 h)
    have hne : a ≠ J / B * B := fun h => hdvd (h ▸ hdJ)
    simp only [hdvd, false_or]
    split at hb <;> grind

end

/-! ### The chunks of a prefill -/

def Request.prefillEnd (request : Request η) : Int := max
    (request.numPromptTokens : Int) ((request.numTokens : Int) - 1)

namespace Scheduler
variable (s : Scheduler η) (request : Request η)

/-- The largest prefill step. -/
def maxPrefillTokens : Nat :=
  let tokens := if s.config.exl3PrefillAuto then min s.config.maxNumScheduledTokens
    2048 else s.config.maxNumScheduledTokens
  if s.config.longPrefillTokenThreshold > 0 then min tokens s.config.longPrefillTokenThreshold else tokens

def lastCachePosition : Int :=
  let lastBlock : Int := (request.numTokens : Int) - request.numTokens % s.config.cacheBlockSize
  if s.config.useEagleBlockDrop then max (lastBlock - s.config.cacheBlockSize) 0 else lastBlock

/-- The last hash boundary of the prompt, one unit lower with EAGLE; 0 if no chunk has to end there. -/
def tailStop : Int :=
  let promptTail : Int :=
    if s.mamba.partialCacheHit then (request.numPromptTokens : Int) / s.config.hashBlockSize *
      s.config.hashBlockSize else 0
  let tail := if promptTail ≠ 0 ∧ s.config.useEagleBlockDrop then max (promptTail - s.config.hashBlockSize)
    0 else promptTail
  if s.lastCachePosition request < tail ∧ tail < request.numPromptTokens then tail else 0

/-- The junction is taken as it is. -/
def FineJunction : Prop :=
  s.mamba.fineGrainedPrefixCache ∧ (request.sharedPrefixBoundary : Int) ≤ request.numPromptTokens

instance : Decidable (s.FineJunction request) := inferInstanceAs (Decidable (_ ∧ _))

def sharedPrefixStop : Int :=
  junctionStop s.config.cacheBlockSize request.prefillEnd request.sharedPrefixBoundary (s.FineJunction request)

/-- The chunk from `a` under a budget of `n` caches a state inside it. -/
def useInternalCheckpoint (a n : Nat) : Bool :=
  s.mamba.hasPrefillCheckpointBlocks && decide (a + n ≥ request.prefillEnd) &&
    isMambaPrefillCheckpointValid a (a + n)
      (getMambaPrefillCheckpointPosition request.prefillEnd.toNat s.config.hashBlockSize s.config.useEagleBlockDrop)
      s.config.hashBlockSize s.config.cacheBlockSize s.mamba.prefillCheckpointAlignment

def mandatoryStops (a n : Nat) : List Int :=
  [if s.useInternalCheckpoint request a n then 0 else s.tailStop request, s.sharedPrefixStop request]

/-- The chunk from `a` under a budget of `n`, with a checkpoint inside, does not misplace the junction. -/
def JunctionKept (a n : Nat) : Prop :=
  VllmCore.JunctionKept s.config.cacheBlockSize request.prefillEnd request.sharedPrefixBoundary a (a + n)
    (s.FineJunction request)

/-- The chunks that the budgets make of the prefill from `a` on: start, budget and end. -/
def prefillChunks : Nat → List Nat → List (Nat × Nat × Nat)
  | _, [] => []
  | a, n :: ns =>
    if request.prefillEnd ≤ a then []
    else
      let b := a + (s.mambaBlockAlignedSplit { request with numComputedTokens := a } n 0 0).toNat
      (a, n, b) :: prefillChunks b ns

/-- The chunk from `a` to `b` under a budget of `n`: where it ends, that it passes no mandatory stop, and when it
is not empty. -/
structure EndsWell (a n b : Nat) : Prop where
  stops : a < b → s.config.cacheBlockSize ∣ b ∨ (b : Int) ∈ s.mandatoryStops request a n ∨ request.prefillEnd ≤ b ∨
    b < a + s.config.cacheBlockSize ∧ s.maxPrefillTokens < s.config.cacheBlockSize
  within : ∀ x : Nat, (x : Int) ∈ s.mandatoryStops request a n → a < x → b ≤ x
  pos : (a / s.config.cacheBlockSize + 1) * s.config.cacheBlockSize ≤ a + n ∨ request.prefillEnd ≤ a + n → a < b

variable {s request}

theorem dvd_lastCachePosition : (s.config.cacheBlockSize : Int) ∣ s.lastCachePosition request := by
  have hlast : (s.config.cacheBlockSize : Int) ∣ request.numTokens - request.numTokens % s.config.cacheBlockSize :=
    Int.dvd_self_sub_emod
  rw [lastCachePosition, Int.max_def]
  split
  · split
    · exact Int.dvd_zero _
    · exact Int.dvd_sub hlast (Int.dvd_refl _)
  · exact hlast

theorem mem_prefillChunks {start : Nat} {budgets : List Nat} {c : Nat × Nat × Nat}
    (hc : c ∈ s.prefillChunks request start budgets) : c.1 < request.prefillEnd ∧ c.2.1 ∈ budgets ∧
      c.2.2 = c.1 + (s.mambaBlockAlignedSplit { request with numComputedTokens := c.1 } c.2.1 0 0).toNat := by
  induction budgets generalizing start with
  | nil => exact absurd hc not_mem_nil
  | cons n ns ih =>
    rw [prefillChunks] at hc
    split at hc
    · exact absurd hc not_mem_nil
    · next hlt =>
      rcases mem_cons.1 hc with rfl | hc
      · exact ⟨Int.not_le.1 hlt, mem_cons_self, rfl⟩
      · obtain ⟨ha, hn, heq⟩ := ih hc
        exact ⟨ha, mem_cons_of_mem _ hn, heq⟩

/-- The chunks leave no gap. -/
theorem prefillChunks_past {start : Nat} {budgets : List Nat} {x : Nat} (hx : start < x)
    (hpast : ∃ c ∈ s.prefillChunks request start budgets, x < c.2.2) :
    ∃ c ∈ s.prefillChunks request start budgets, c.2.2 = x ∨ c.1 < x ∧ x < c.2.2 := by
  induction budgets generalizing start with
  | nil => exact absurd hpast.choose_spec.1 not_mem_nil
  | cons n ns ih =>
    rw [prefillChunks] at hpast ⊢
    by_cases hend : request.prefillEnd ≤ start
    · rw [if_pos hend] at hpast
      exact absurd hpast.choose_spec.1 not_mem_nil
    · simp only [if_neg hend] at hpast ⊢
      generalize start + _ = b at hpast ⊢
      rcases Nat.lt_trichotomy x b with hlt | rfl | hgt
      · exact ⟨_, mem_cons_self .., .inr ⟨hx, hlt⟩⟩
      · exact ⟨_, mem_cons_self .., .inl rfl⟩
      · obtain ⟨c, hc, hxc⟩ := hpast
        rcases mem_cons.1 hc with rfl | hc
        · exact absurd hxc (Nat.lt_asymm hgt)
        · obtain ⟨c', hc', h⟩ := ih hgt ⟨c, hc, hxc⟩
          exact ⟨c', mem_cons_of_mem _ hc', h⟩

/-- `EndsWell` of the chunk that is cut at `b`, in the integers. -/
theorem endsWell_cut_iff {a n : Nat} {b : Int} : s.EndsWell request a n (a + (max (b - a) 0).toNat) ↔
    ((a < b → (s.config.cacheBlockSize : Int) ∣ b ∨ b ∈ s.mandatoryStops request a n ∨ request.prefillEnd ≤ b ∨
      b < a + s.config.cacheBlockSize ∧ s.maxPrefillTokens < s.config.cacheBlockSize) ∧
    (∀ x ∈ s.mandatoryStops request a n, a < x → b ≤ x)) ∧
    (((a : Int) / s.config.cacheBlockSize + 1) * s.config.cacheBlockSize ≤ a + n ∨ request.prefillEnd ≤ a + n →
      a < b) := by
  have hcast : ((a + (max (b - a) 0).toNat : Nat) : Int) = max (a : Int) b := by omega
  generalize a + (max (b - a) 0).toNat = c at hcast
  constructor
  · rintro ⟨hstops, hwithin, hpos⟩
    refine ⟨⟨fun hab => ?_, fun x hx hax => ?_⟩, fun h => ?_⟩
    · obtain rfl : b = c := by omega
      rw [Int.natCast_dvd_natCast]
      exact (hstops (by omega)).imp_right (.imp_right (.imp_right fun h => ⟨by omega, h.2⟩))
    · have := hwithin x.toNat (by rwa [Int.toNat_of_nonneg (by omega)]) (by omega)
      omega
    · have := hpos (by exact_mod_cast h)
      omega
  · rintro ⟨⟨hstops, hwithin⟩, hpos⟩
    refine ⟨fun hac => ?_, fun x hx hax => ?_, fun h => ?_⟩
    · obtain rfl : b = c := by omega
      rw [← Int.natCast_dvd_natCast]
      exact (hstops (by omega)).imp_right (.imp_right (.imp_right fun h => ⟨by omega, h.2⟩))
    · have := hwithin x hx (by omega)
      omega
    · have := hpos (by exact_mod_cast h)
      omega

/-- The split of a chunk, with its decision about the checkpoint named. -/
theorem useInternalCheckpoint_eq (a n : Nat) :
    (s.mamba.hasPrefillCheckpointBlocks &&
      decide ((a : Int) + n ≥ max (request.numPromptTokens : Int) (request.numTokens - 1)) &&
      isMambaPrefillCheckpointValid (a : Int).toNat ((a : Int) + n).toNat (getMambaPrefillCheckpointPosition
        (max (request.numPromptTokens : Int) (request.numTokens - 1)).toNat s.config.hashBlockSize
        s.config.useEagleBlockDrop) s.config.hashBlockSize s.config.cacheBlockSize
        s.mamba.prefillCheckpointAlignment) = s.useInternalCheckpoint request a n := rfl

variable (hB : 0 < s.config.cacheBlockSize) {a n : Nat} (ha : a < request.prefillEnd)
include hB ha

theorem split_endsWell (hn : 0 < n) (hno : s.useInternalCheckpoint request a n = false) : s.EndsWell request a n
    (a + (s.mambaBlockAlignedSplit { request with numComputedTokens := a } n 0 0).toNat) := by
  have hcut := cut_spec (Int.natCast_pos.2 hB) a (a + n) request.prefillEnd
    request.sharedPrefixBoundary (s.lastCachePosition request) (s.tailStop request) (s.FineJunction request)
    (s.config.cacheBlockSize ≤ s.maxPrefillTokens) dvd_lastCachePosition (Int.natCast_nonneg a) (by omega) rfl rfl
  generalize hb : firstStop _ _ _ = b at hcut
  have hsplit : s.mambaBlockAlignedSplit { request with numComputedTokens := a } n 0 0 = max (b - a) 0 := by
    have hnum : { request with numComputedTokens := a }.numTokens = request.numTokens := rfl
    simp only [mambaBlockAlignedSplit, hnum, Int.natCast_zero, Int.add_zero, useInternalCheckpoint_eq, hno,
      Bool.not_false, Bool.and_true, Bool.false_eq_true, if_false, and_true, ← hb]
    exact (if_neg (Int.not_le.2 ha)).trans rfl
  obtain ⟨hstops, htail, hjunction, hpos⟩ := hcut
  rw [hsplit]
  refine endsWell_cut_iff.2 ⟨⟨fun h => ?_, ?_⟩, hpos⟩
  · rw [mandatoryStops, hno, mem_cons, mem_singleton, or_assoc]
    exact (hstops h).imp_right (.imp_right (.imp_right (.imp_right (And.imp_right Nat.not_le.1))))
  · simp only [mandatoryStops, hno, mem_cons, not_mem_nil, or_false, forall_eq_or_imp, forall_eq]
    exact ⟨htail, hjunction⟩

/-- A checkpoint inside the chunk can spoil it. -/
theorem split_endsWell_iff (huse : s.useInternalCheckpoint request a n = true) : s.EndsWell request a n
    (a + (s.mambaBlockAlignedSplit { request with numComputedTokens := a } n 0 0).toNat) ↔
    s.JunctionKept request a n := by
  have hN : request.prefillEnd ≤ a + n := by
    simp only [useInternalCheckpoint, Bool.and_eq_true, decide_eq_true_eq] at huse
    exact huse.1.2
  have hcut := checkpoint_cut_iff (Int.natCast_pos.2 hB) a (a + n) request.prefillEnd
    request.sharedPrefixBoundary (s.FineJunction request) (s.maxPrefillTokens < s.config.cacheBlockSize)
    (Int.natCast_nonneg a) ha hN rfl
  generalize hb : firstStop _ _ _ = b at hcut
  have hsplit : s.mambaBlockAlignedSplit { request with numComputedTokens := a } n 0 0 = max (b - a) 0 := by
    have hnum : { request with numComputedTokens := a }.numTokens = request.numTokens := rfl
    simp only [mambaBlockAlignedSplit, hnum, Int.natCast_zero, Int.add_zero, useInternalCheckpoint_eq, huse,
      Bool.not_true, Bool.and_false, Bool.false_eq_true, and_false, if_false, if_true, ne_eq, not_true, false_and,
      Int.lt_irrefl, Int.not_lt.2 (show max (request.numPromptTokens : Int) (request.numTokens - 1) ≤
        a + n from hN), ← hb]
    exact (if_neg (Int.not_le.2 ha)).trans rfl
  obtain ⟨hpos, hiff⟩ := hcut
  have hzero : b ≠ 0 := by omega
  rw [hsplit, endsWell_cut_iff, JunctionKept, ← hiff]
  simp only [mandatoryStops, huse, mem_cons, if_true, not_mem_nil, or_false, hpos, hzero, false_or, true_imp_iff,
    implies_true, and_true, sharedPrefixStop, forall_eq_or_imp, forall_eq]
  exact and_congr_right fun _ => and_iff_right fun h => absurd h (by omega)

omit hB ha

def alignConfig : SchedulerConfig where
  maxNumRunningReqs := 4
  maxNumScheduledTokens := 16
  maxNumBatchedTokens := 16
  maxModelLen := 16
  maxInFlightTokens := 16
  blockSize := 4
  cacheBlockSize := 4
  hashBlockSize := 2
  mambaCacheMode := .align

def alignCache : Coordinator.KVCacheConfig where
  numBlocks := 9
  groups := [⟨{ blockSize := 4, kind := .fullAttention }, false⟩, ⟨{ blockSize := 4, kind := .mamba {
    mambaCacheMode := .align
    numPrefillCheckpointBlocks := 1
    prefillCheckpointAlignment := some ⟨2, Nat.two_pos⟩ } }, false⟩]

def sharedHalf : Request Nat where
  requestId := 0
  numPromptTokens := 16
  allTokenIds := List.replicate 16 7
  sharedPrefixBoundary := 8

end Scheduler

end VllmCore
