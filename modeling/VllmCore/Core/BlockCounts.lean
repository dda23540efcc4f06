import VllmCore.Core.ManagerRefs

/-! # How many blocks an operation takes

Ceiling division, the number of blocks that leave the free queue, and the tables an operation leaves
behind. These facts need nothing of the pool but its counter, so they hold between any two steps. -/

namespace VllmCore
open Except List
variable {η : Type} {a k n b : Nat}

/-! ### Ceiling division -/

theorem cdiv_mono (h : a ≤ b) : cdiv a k ≤ cdiv b k :=
  Nat.div_le_div_right (by omega)

theorem cdiv_eq_pred_div (ha : 0 < a) (hk : 0 < k) : cdiv a k = (a - 1) / k + 1 := by
  have : a + k - 1 = (a - 1) + k := by omega
  rw [cdiv, this, Nat.add_div_right _ hk]

theorem cdiv_pos (ha : 0 < a) (hk : 0 < k) : 0 < cdiv a k := by
  rw [cdiv_eq_pred_div ha hk]
  exact Nat.succ_pos _

theorem le_cdiv_mul (hk : 0 < k) : a ≤ cdiv a k * k := by
  rcases Nat.eq_zero_or_pos a with rfl | ha
  · exact Nat.zero_le _
  · have := Nat.div_add_mod (a - 1) k
    have := Nat.mod_lt (a - 1) hk
    rw [cdiv_eq_pred_div ha hk, Nat.add_mul, Nat.mul_comm]
    omega

theorem cdiv_le_iff (hk : 0 < k) : cdiv a k ≤ n ↔ a ≤ n * k := by
  constructor
  · intro h
    exact (le_cdiv_mul hk).trans (Nat.mul_le_mul_right k h)
  · intro h
    rcases Nat.eq_zero_or_pos a with rfl | ha
    · have : cdiv 0 k = 0 := Nat.div_eq_of_lt (by omega)
      omega
    · rw [cdiv_eq_pred_div ha hk]
      exact (Nat.div_lt_iff_lt_mul hk).2 (by omega)

theorem cdiv_of_dvd (hk : 0 < k) (h : k ∣ a) : cdiv a k = a / k := by
  obtain ⟨q, rfl⟩ := h
  rw [Nat.mul_div_cancel_left q hk]
  refine Nat.le_antisymm ((cdiv_le_iff hk).2 (Nat.mul_comm k q).le) ?_
  have := (cdiv_le_iff hk).1 (Nat.le_refl (cdiv (k * q) k))
  exact Nat.le_of_mul_le_mul_left (by rwa [Nat.mul_comm k (cdiv _ _)]) hk

theorem cdiv_lt_of_dvd (hk : 0 < k) (ha : a % k = 0) (h : a < b) : cdiv a k < cdiv b k := by
  have hb := le_cdiv_mul (a := b) hk
  have hmul : a / k * k = a := Nat.div_mul_cancel (Nat.dvd_of_mod_eq_zero ha)
  have hle : cdiv a k ≤ a / k := (cdiv_le_iff hk).2 hmul.ge
  have : a / k < cdiv b k := by
    by_contra hcon
    have := Nat.mul_le_mul_right k (Nat.le_of_not_lt hcon)
    omega
  omega

/-! ### The pool -/

namespace BlockPool
variable {p p' : BlockPool η} {bs : List BlockId}

theorem popLoop_length {L L' : Links BlockId} {curr curr' : Option (Node BlockId)}
    (h : FreeKVCacheBlockQueue.popLoop n L curr = .ok (bs, L', curr')) : bs.length = n := by
  induction n generalizing L curr bs with
  | zero => cases h; rfl
  | succ n ih =>
    match curr with
    | some (.elem b) =>
      simp only [FreeKVCacheBlockQueue.popLoop, do_eq_ok] at h
      obtain ⟨⟨rest, L1, c1⟩, h1, h⟩ := h
      cases h
      rw [length_cons, ih h1]
    | none => cases h
    | some .head => cases h
    | some .tail => cases h

theorem popleftN_count {q q' : FreeKVCacheBlockQueue} (h : q.popleftN n = .ok (bs, q')) :
    bs.length = n ∧ q.numFreeBlocks = q'.numFreeBlocks + n := by
  unfold FreeKVCacheBlockQueue.popleftN at h
  split at h
  · next h0 => cases h; exact ⟨h0.symm, by omega⟩
  · simp only [do_eq_ok] at h
    obtain ⟨-, hn, ⟨ret, L, curr⟩, hloop, h⟩ := h
    cases h
    exact ⟨popLoop_length hloop, by dsimp only; omega⟩

theorem getNewBlocks_count [DecidableEq η] (h : p.getNewBlocks n = .ok (bs, p')) :
    bs.length = n ∧ p.getNumFreeBlocks = p'.getNumFreeBlocks + n := by
  simp only [getNewBlocks, do_eq_ok] at h
  obtain ⟨-, -, ⟨ret, q⟩, hq, p1, hp1, h⟩ := h
  cases h
  obtain ⟨hlen, hcount⟩ := popleftN_count hq
  have hqueue : p'.freeBlockQueue = q := by
    refine foldlM_inv (P := fun x : BlockPool η => x.freeBlockQueue = q) (fun b _ x y hx hy => ?_) hp1 rfl
    simp only [takeBlock, do_eq_ok] at hy
    obtain ⟨-, -, rfl⟩ := hy
    show BlockPool.freeBlockQueue (if x.enableCaching then _ else x) = q
    split
    · exact (sameRefs_maybeEvictCachedBlock x b).queue.trans hx
    · exact hx
  exact ⟨hlen, by simp only [getNumFreeBlocks, hqueue]; exact hcount⟩

theorem touchBlock_count {b : BlockId} (h : p.touchBlock b = .ok p') :
    p.getNumFreeBlocks ≤ p'.getNumFreeBlocks + Manager.getNumEvictableBlocks p [b] ∧
      ∀ x, (p'.blocks x).refCnt = (p.blocks x).refCnt + if x = b then 1 else 0 := by
  unfold touchBlock at h
  split at h
  · next hev =>
    simp only [do_eq_ok] at h
    obtain ⟨q, hq, rfl⟩ := h
    refine ⟨?_, fun x => refCnt_addRef ..⟩
    have : Manager.getNumEvictableBlocks p [b] = 1 := by
      simp only [Manager.getNumEvictableBlocks, countP_singleton]
      exact if_pos hev
    rw [this]
    unfold FreeKVCacheBlockQueue.remove at hq
    split at hq
    · cases hq
      show p.freeBlockQueue.numFreeBlocks ≤ p.freeBlockQueue.numFreeBlocks - 1 + 1
      omega
    · cases hq
  · cases h
    exact ⟨Nat.le_add_right _ _, fun x => refCnt_addRef ..⟩

theorem touch_count (hrefs : ∀ b, 0 ≤ (p.blocks b).refCnt) (h : p.touch bs = .ok p') :
    p.getNumFreeBlocks ≤ p'.getNumFreeBlocks + Manager.getNumEvictableBlocks p bs := by
  induction bs generalizing p with
  | nil =>
    cases pure_eq_ok.1 h
    exact Nat.le_add_right _ _
  | cons b bs ih =>
    simp only [touch, foldlM_cons, bind_eq_ok] at h
    obtain ⟨p1, h1, h⟩ := h
    obtain ⟨hfree, hcnt⟩ := touchBlock_count h1
    have hrefs1 : ∀ x, 0 ≤ (p1.blocks x).refCnt := by
      intro x
      have := hrefs x
      rw [hcnt x]
      split <;> omega
    -- counts only go up, so what is evictable afterwards was so before
    have hmono : Manager.getNumEvictableBlocks p1 bs ≤ Manager.getNumEvictableBlocks p bs := by
      refine countP_mono_left fun x _ hx => ?_
      have := hrefs x
      have := hcnt x
      simp only [Bool.and_eq_true, decide_eq_true_eq] at hx ⊢
      refine ⟨?_, hx.2⟩
      split at this <;> omega
    have hsplit : Manager.getNumEvictableBlocks p (b :: bs) =
        Manager.getNumEvictableBlocks p [b] + Manager.getNumEvictableBlocks p bs := by
      simp only [Manager.getNumEvictableBlocks]
      rw [← countP_append]
      rfl
    have := ih hrefs1 h
    omega

end BlockPool

/-! ### Tables -/

theorem mem_insertNew {α : Type} [DecidableEq α] {x y : α} {l : List α} : x ∈ insertNew y l ↔ x = y ∨ x ∈ l := by
  unfold insertNew
  split
  · next h => exact ⟨.inr, fun hx => hx.elim (· ▸ h) id⟩
  · simp [or_comm]

namespace Manager
variable {m m' : Manager η} {p p' : BlockPool η} {r x : RequestId} {bs hits : List BlockId}

theorem appendNewBlocks_spec [DecidableEq η] (h : m.appendNewBlocks p r n = .ok (bs, m', p')) :
    bs.length = n ∧ p.getNumFreeBlocks = p'.getNumFreeBlocks + n ∧
      m' = { m.setBlocks r (m.blocksOf r ++ bs) with newBlockIds := m'.newBlockIds } := by
  simp only [appendNewBlocks, do_eq_ok] at h
  obtain ⟨⟨new, q⟩, hq, h⟩ := h
  obtain ⟨hlen, hcount⟩ := BlockPool.getNewBlocks_count hq
  obtain ⟨rfl, hm, rfl⟩ : new = bs ∧ _ ∧ q = p' := by simpa only [Prod.mk.injEq] using h
  refine ⟨hlen, hcount, ?_⟩
  rw [← hm]
  split <;> rfl

theorem touchHits_count (hrefs : ∀ b, 0 ≤ (p.blocks b).refCnt) (h : m.touchHits p hits = .ok p') :
    p.getNumFreeBlocks ≤ p'.getNumFreeBlocks + getNumEvictableBlocks p hits := by
  unfold touchHits at h
  split at h
  · exact BlockPool.touch_count hrefs h
  split at h
  · cases h; exact Nat.le_add_right _ _
  · cases h

theorem notePartialHit_spec (m : Manager η) (r : RequestId) (hits : List BlockId) (n : Nat) :
    (m.notePartialHit r hits n).reqToBlocks = m.reqToBlocks ∧ (m.notePartialHit r hits n).spec = m.spec ∧
      (m.notePartialHit r hits n).allocatedBlockReqs = m.allocatedBlockReqs ∧
      (m.notePartialHit r hits n).checkpoints = m.checkpoints ∧
      ∀ x, (m.notePartialHit r hits n).partialHitReqs.contains x =
        (decide (x = r) && m.hasPartialLocalHit hits n || m.partialHitReqs.contains x) := by
  unfold notePartialHit
  split
  · next hp _ =>
    refine ⟨rfl, rfl, rfl, rfl, fun x => ?_⟩
    simp only [Dict.contains, Dict.get?_set, hp, Bool.and_true]
    split
    · next h => simp [h]
    · next h => simp [h]
  · next hno =>
    refine ⟨rfl, rfl, rfl, rfl, fun x => ?_⟩
    have hp : m.hasPartialLocalHit hits n = false := by
      cases hits using List.reverseRecOn with
      | nil => rfl
      | append_singleton l b =>
        cases hpart : m.hasPartialLocalHit (l ++ [b]) n with
        | false => rfl
        | true => exact absurd (getLast?_concat ..) (hno b hpart)
    simp [hp]

end Manager

end VllmCore
