import VllmCore.KvOffload.CpuManager

/-! # Conservation of the chunk pool

`Conserved` ties the three views of the pool together: the ids of the free list and of the held chunks
are the allocated ids, once each, and the two counters count the held chunks at `0` and at `-1`. Each
call keeps it, over any lawful policy. -/

namespace VllmCore.KvOffload
open Except List LawfulCachePolicy
open LawfulCachePolicy (Sound chunks)

namespace CPUOffloadingManager
variable {κ P : Type} [DecidableEq κ] [CachePolicy κ P] [LawfulCachePolicy κ P] {m m' : CPUOffloadingManager κ P}
  {k : κ} {c c' : ChunkStatus} {rest l l' gone : List (κ × ChunkStatus)} {keys : List κ}

abbrev held (m : CPUOffloadingManager κ P) : List (κ × ChunkStatus) := chunks m.policy

def numAt (l : List (κ × ChunkStatus)) (n : Int) : Nat := l.countP fun e => decide (e.2.refCnt = n)

structure Conserved (m : CPUOffloadingManager κ P) : Prop where
  sound : Sound m.policy
  ids : (m.freeList ++ m.held.map fun e => e.2.chunkId).Perm (List.range m.numAllocatedChunks)
  allocated_le : m.numAllocatedChunks ≤ m.numChunks
  evictable : m.numEvictableCacheChunks = numAt m.held 0
  pending : m.numWritePendingChunks = numAt m.held (-1)
  refCnt_range : ∀ e ∈ m.held, -1 ≤ e.2.refCnt ∧ e.2.refCnt < 2 ^ 31

omit [DecidableEq κ] in
theorem numAt_cons (k : κ) (c : ChunkStatus) (l : List (κ × ChunkStatus)) (n : Int) :
    numAt ((k, c) :: l) n = numAt l n + if c.refCnt = n then 1 else 0 := by
  simp [numAt, countP_cons]

omit [DecidableEq κ] in
theorem numAt_perm (h : l.Perm l') (n : Int) : numAt l n = numAt l' n :=
  h.countP_eq _

theorem held_perm (h : m.Conserved) (hk : CachePolicy.get m.policy k = some c) :
    m.held.Perm ((k, c) :: m.held.erase (k, c)) :=
  perm_cons_erase ((get_eq_some h.sound).1 hk)

theorem init_conserved (numChunks : Nat) (enableEvents : Bool) (storeThreshold maxTrackerSize : Nat) :
    (init numChunks enableEvents storeThreshold maxTrackerSize : CPUOffloadingManager κ P).Conserved := by
  have hnil : chunks (CachePolicy.init numChunks : P) = [] := chunks_init numChunks
  refine ⟨sound_init numChunks, ?_, Nat.zero_le _, ?_, ?_, ?_⟩ <;>
    simp [init, held, hnil, numAt]

/-! ### One chunk changes its count -/

def Becomes (m m' : CPUOffloadingManager κ P) (k : κ) (c : Option ChunkStatus) : Prop :=
  ∀ a, CachePolicy.get m'.policy a = if a = k then c else CachePolicy.get m.policy a

theorem becomes_of_perm (h : Sound m.policy) (h' : Sound m'.policy) (hp : m.held.Perm ((k, c) :: rest))
    (hp' : m'.held.Perm ((k, c') :: rest)) : m.Becomes m' k (some c') := by
  have hnd : (((k, c) :: rest).map Prod.fst).Nodup := (hp.map Prod.fst).nodup_iff.1 (LawfulCachePolicy.nodup h)
  rw [map_cons, nodup_cons] at hnd
  intro a
  refine Option.ext fun w => ?_
  rw [get_eq_some h', hp'.mem_iff, mem_cons, Prod.mk.injEq]
  split
  · next ha =>
    subst ha
    have hno : (a, w) ∉ rest := fun hm => hnd.1 (mem_map.2 ⟨_, hm, rfl⟩)
    simp [hno, eq_comm]
  · next ha =>
    rw [get_eq_some h, hp.mem_iff, mem_cons, Prod.mk.injEq]
    simp [ha]

structure SameShell (m m' : CPUOffloadingManager κ P) : Prop where
  numChunks : m'.numChunks = m.numChunks
  numAllocatedChunks : m'.numAllocatedChunks = m.numAllocatedChunks
  freeList : m'.freeList = m.freeList

theorem Conserved.replace (h : m.Conserved) (hs : Sound m'.policy) (hp : m.held.Perm ((k, c) :: rest))
    (hp' : m'.held.Perm ((k, c') :: rest)) (hid : c'.chunkId = c.chunkId)
    (hrange : -1 ≤ c'.refCnt ∧ c'.refCnt < 2 ^ 31) (hm : m.SameShell m')
    (hE : m'.numEvictableCacheChunks + (if c.refCnt = 0 then 1 else 0) =
      m.numEvictableCacheChunks + (if c'.refCnt = 0 then 1 else 0))
    (hW : m'.numWritePendingChunks + (if c.refCnt = -1 then 1 else 0) =
      m.numWritePendingChunks + (if c'.refCnt = -1 then 1 else 0)) : m'.Conserved := by
  obtain ⟨hn, ha, hf⟩ := hm
  refine ⟨hs, ?_, by rw [hn, ha]; exact h.allocated_le, ?_, ?_, ?_⟩
  · have hids : (m'.held.map fun e => e.2.chunkId).Perm (m.held.map fun e => e.2.chunkId) := by
      refine (hp'.map _).trans ?_
      rw [map_cons, hid]
      exact (hp.map fun e => e.2.chunkId).symm
    rw [hf, ha]
    exact (hids.append_left _).trans h.ids
  · have hE' := h.evictable
    rw [numAt_perm hp, numAt_cons] at hE'
    rw [numAt_perm hp', numAt_cons]
    split_ifs at hE hE' ⊢ <;> omega
  · have hW' := h.pending
    rw [numAt_perm hp, numAt_cons] at hW'
    rw [numAt_perm hp', numAt_cons]
    split_ifs at hW hW' ⊢ <;> omega
  · intro e he
    rcases mem_cons.1 (hp'.mem_iff.1 he) with rfl | he
    · exact hrange
    · exact h.refCnt_range e (hp.mem_iff.2 (mem_cons_of_mem _ he))

/-- Below the largest count. -/
theorem pin_spec (h : m.Conserved) (hk : CachePolicy.get m.policy k = some c) (hr : c.isReady)
    (hfit : c.refCnt + 1 < 2 ^ 31) :
    ∃ m', m.pin k c = .ok m' ∧ m'.Conserved ∧ m.Becomes m' k (some { c with refCnt := c.refCnt + 1 }) := by
  have hp := held_perm h hk
  have hr' : 0 ≤ c.refCnt := hr
  unfold pin
  rw [cInt32_eq (by omega) hfit]
  by_cases h0 : c.refCnt = 0
  · obtain ⟨q, hq, hs, hp'⟩ := write_pinned (x := { c with refCnt := c.refCnt + 1 })
      h.sound hp h0 (by simp [h0])
    have hE : 0 ≤ m.numEvictableCacheChunks - 1 := by
      have := h.evictable
      rw [numAt_perm hp, numAt_cons, if_pos h0] at this
      omega
    refine ⟨_, by simp only [h0, if_true, hq, ok_bind, ensure_pos hE]; rfl, ?_, ?_⟩
    · simp only [h0] at hs hp'
      exact h.replace hs hp hp' rfl (by simp) ⟨rfl, rfl, rfl⟩ (by simp [h0]) (by simp [h0])
    · simp only [h0] at hs hp' ⊢
      exact becomes_of_perm h.sound hs hp hp'
  · obtain ⟨hs, hp'⟩ := write_busy (x := { c with refCnt := c.refCnt + 1 })
      h.sound hp h0 (by simp; omega)
    refine ⟨_, by simp only [h0, if_false]; rfl, ?_, becomes_of_perm h.sound hs hp hp'⟩
    refine h.replace hs hp hp' rfl ⟨by simp; omega, hfit⟩ ⟨rfl, rfl, rfl⟩ ?_ ?_
    · rw [if_neg h0, if_neg (by simp; omega)]
    · rw [if_neg (by omega), if_neg (by simp; omega)]

theorem unpin_spec (e e' : Err) (h : m.Conserved) (hk : CachePolicy.get m.policy k = some c) (hc : 0 < c.refCnt) :
    ∃ m', m.unpin e e' k = .ok m' ∧ m'.Conserved ∧ m.Becomes m' k (some { c with refCnt := c.refCnt - 1 }) := by
  have hp := held_perm h hk
  have hlt := (h.refCnt_range _ ((get_eq_some h.sound).1 hk)).2
  simp only at hlt
  unfold unpin
  simp only [hk, ensure_pos hc, ok_bind, cInt32_eq (n := c.refCnt - 1) (by omega) (by omega)]
  by_cases h0 : c.refCnt - 1 = 0
  · obtain ⟨hs, hp'⟩ := write_idle (x := { c with refCnt := c.refCnt - 1 })
      h.sound hp (by omega) h0
    refine ⟨_, by rw [if_pos h0]; rfl, ?_, becomes_of_perm h.sound hs hp hp'⟩
    refine h.replace hs hp hp' rfl ⟨by simp; omega, by simp; omega⟩ ⟨rfl, rfl, rfl⟩ ?_ ?_
    · rw [if_neg (by omega), if_pos h0]; simp
    · rw [if_neg (by omega), if_neg (by simp; omega)]
  · obtain ⟨hs, hp'⟩ := write_busy (x := { c with refCnt := c.refCnt - 1 })
      h.sound hp (by omega) h0
    refine ⟨_, by rw [if_neg h0]; rfl, ?_, becomes_of_perm h.sound hs hp hp'⟩
    refine h.replace hs hp hp' rfl ⟨by simp; omega, by simp; omega⟩ ⟨rfl, rfl, rfl⟩ ?_ ?_
    · rw [if_neg (by omega), if_neg h0]
    · rw [if_neg (by omega), if_neg (by simp; omega)]

omit [DecidableEq κ] [LawfulCachePolicy κ P] in
theorem unpin_ok {e e' : Err} (h : m.unpin e e' k = .ok m') :
    ∃ c, CachePolicy.get m.policy k = some c ∧ 0 < c.refCnt := by
  unfold unpin at h
  split at h
  · cases h
  · next c hc =>
    obtain ⟨_, hpos, -⟩ := bind_eq_ok.1 h
    exact ⟨c, hc, ensure_eq_ok.1 hpos⟩

theorem unpin_conserved (h : m.Conserved) {e e' : Err} (hu : m.unpin e e' k = .ok m') : m'.Conserved := by
  obtain ⟨c, hc, hpos⟩ := unpin_ok hu
  obtain ⟨m₁, hm₁, hcons, -⟩ := unpin_spec e e' h hc hpos
  rw [hu] at hm₁
  cases hm₁
  exact hcons

theorem storeReady_spec (h : m.Conserved) (l : List κ) (hk : CachePolicy.get m.policy k = some c) (hr : ¬ c.isReady) :
    ∃ m', storeReady (l, m) k = (l ++ [k], m') ∧ m'.Conserved ∧ m.Becomes m' k (some { c with refCnt := 0 }) := by
  have hp := held_perm h hk
  have hge := (h.refCnt_range _ (hp.mem_iff.2 (mem_cons_self ..))).1
  have hlt : ¬ 0 ≤ c.refCnt := hr
  have hm1 : c.refCnt = -1 := by simp only at hge; omega
  obtain ⟨hs, hp'⟩ := write_idle (x := { c with refCnt := 0 }) h.sound hp (by omega) rfl
  refine ⟨_, by unfold storeReady; simp only [hk, hr, if_false]; rfl, ?_, becomes_of_perm h.sound hs hp hp'⟩
  refine h.replace hs hp hp' rfl (by simp) ⟨rfl, rfl, rfl⟩ ?_ ?_
  · rw [if_neg (by omega), if_pos rfl]; simp
  · rw [if_pos hm1, if_neg (by simp)]; simp

theorem storeReady_conserved {st : List κ × CPUOffloadingManager κ P} (h : st.2.Conserved) (k : κ) :
    (storeReady st k).2.Conserved := by
  cases hk : CachePolicy.get st.2.policy k with
  | none => simpa [storeReady, hk] using h
  | some c =>
    by_cases hr : c.isReady
    · simpa [storeReady, hk, hr] using h
    · obtain ⟨m', hm', hcons, -⟩ := storeReady_spec h st.1 hk hr
      rw [show storeReady st k = _ from hm']
      exact hcons

/-! ### A chunk leaves -/

theorem Conserved.drop (h : m.Conserved) (hs : Sound m'.policy) (hp : m.held.Perm (gone ++ m'.held))
    (hn : m'.numChunks = m.numChunks) (ha : m'.numAllocatedChunks = m.numAllocatedChunks)
    (hf : m'.freeList = m.freeList ++ gone.map fun e => e.2.chunkId)
    (hE : m'.numEvictableCacheChunks + numAt gone 0 = m.numEvictableCacheChunks)
    (hW : m'.numWritePendingChunks + numAt gone (-1) = m.numWritePendingChunks) : m'.Conserved := by
  have hcount : ∀ n, numAt m.held n = numAt gone n + numAt m'.held n := by
    intro n
    rw [numAt_perm hp]
    exact countP_append ..
  refine ⟨hs, ?_, by rw [hn, ha]; exact h.allocated_le, ?_, ?_, ?_⟩
  · have hids := (hp.map fun e => e.2.chunkId).append_left m.freeList
    rw [map_append, ← append_assoc] at hids
    rw [hf, ha]
    exact hids.symm.trans h.ids
  · have := h.evictable
    rw [hcount] at this
    omega
  · have := h.pending
    rw [hcount] at this
    omega
  · exact fun e he => h.refCnt_range e (hp.mem_iff.2 (mem_append_right _ he))

theorem storeFailed_spec (h : m.Conserved) (hk : CachePolicy.get m.policy k = some c) (hr : ¬ c.isReady) :
    ∃ m', m.storeFailed k = .ok m' ∧ m'.Conserved ∧ m.Becomes m' k none := by
  have hp := held_perm h hk
  have hge := (h.refCnt_range _ (hp.mem_iff.2 (mem_cons_self ..))).1
  have hlt : ¬ 0 ≤ c.refCnt := hr
  have hm1 : c.refCnt = -1 := by simp only at hge; omega
  obtain ⟨q, hq, hs, hp'⟩ := remove_held h.sound hp
  refine ⟨_, by unfold storeFailed; simp only [hk, hr, if_false, hq, ok_bind]; rfl, ?_, ?_⟩
  · have hgone : m.held.Perm ([(k, c)] ++ chunks q) := hp.trans (hp'.symm.cons _)
    refine h.drop hs hgone rfl rfl rfl ?_ ?_
    · simp [numAt, hm1, freeChunk]
    · simp [numAt, hm1, freeChunk]
  · have hnd : (((k, c) :: m.held.erase (k, c)).map Prod.fst).Nodup :=
      (hp.map Prod.fst).nodup_iff.1 (LawfulCachePolicy.nodup h.sound)
    rw [map_cons, nodup_cons] at hnd
    intro a
    refine Option.ext fun w => ?_
    show CachePolicy.get q a = some w ↔ _
    rw [get_eq_some hs, hp'.mem_iff]
    split
    · next ha =>
      subst ha
      have hno : (a, w) ∉ m.held.erase (a, c) := fun hm => hnd.1 (mem_map.2 ⟨_, hm, rfl⟩)
      simp [hno]
    · next ha =>
      rw [get_eq_some h.sound, hp.mem_iff, mem_cons, Prod.mk.injEq]
      simp [ha]

theorem storeFailed_conserved (h : m.Conserved) (hm : m.storeFailed k = .ok m') : m'.Conserved := by
  cases hk : CachePolicy.get m.policy k with
  | none =>
    simp only [storeFailed, hk] at hm
    cases hm
    exact h
  | some c =>
    by_cases hr : c.isReady
    · simp only [storeFailed, hk, hr, if_true] at hm
      cases hm
      exact h
    · obtain ⟨m₁, hm₁, hcons, -⟩ := storeFailed_spec h hk hr
      rw [hm] at hm₁
      cases hm₁
      exact hcons

/-! ### Chunks come in -/

theorem insertAll_spec {p : P} (hp : Sound p) (hnd : (l.map Prod.fst).Nodup)
    (hnew : ∀ e ∈ l, e.1 ∉ (chunks p).map Prod.fst) (hbusy : ∀ e ∈ l, e.2.refCnt ≠ 0) :
    Sound (l.foldl (fun p e => CachePolicy.insert p e.1 e.2) p) ∧
      (chunks (l.foldl (fun p e => CachePolicy.insert p e.1 e.2) p)).Perm (l ++ chunks p) := by
  induction l generalizing p with
  | nil => exact ⟨hp, Perm.refl _⟩
  | cons e l ih =>
    rw [map_cons, nodup_cons] at hnd
    obtain ⟨hs, hperm⟩ := insert_new hp (hnew e (mem_cons_self ..))
      (hbusy e (mem_cons_self ..))
    have hnew' : ∀ a ∈ l, a.1 ∉ (chunks (CachePolicy.insert p e.1 e.2)).map Prod.fst := by
      intro a ha hm
      rw [(hperm.map Prod.fst).mem_iff, map_cons, mem_cons] at hm
      rcases hm with heq | hm
      · exact hnd.1 (heq ▸ mem_map_of_mem ha)
      · exact hnew a (mem_cons_of_mem _ ha) hm
    obtain ⟨hs', hperm'⟩ := ih hs hnd.2 hnew' fun a ha => hbusy a (mem_cons_of_mem _ ha)
    exact ⟨hs', hperm'.trans ((hperm.append_left l).trans perm_middle)⟩

omit [DecidableEq κ] [CachePolicy κ P] [LawfulCachePolicy κ P] in
theorem allocateChunks_spec {n : Nat} (ha : m.numAllocatedChunks ≤ m.numChunks) (hn : n ≤ m.getNumFreeChunks) :
    ∃ ids m', m.allocateChunks n = .ok (ids.map fun i => { chunkId := i }, m') ∧ ids.length = n ∧
      m' = { m with numAllocatedChunks := m'.numAllocatedChunks, freeList := m'.freeList } ∧
      m'.numAllocatedChunks ≤ m.numChunks ∧
      ∀ l : List Nat, (m.freeList ++ l).Perm (List.range m.numAllocatedChunks) →
        (m'.freeList ++ (ids ++ l)).Perm (List.range m'.numAllocatedChunks) := by
  unfold getNumFreeChunks at hn
  have hroom : n - min n (m.numChunks - m.numAllocatedChunks) ≤ m.freeList.length := by omega
  unfold allocateChunks
  simp only [ensure_pos hroom, ok_bind]
  refine ⟨_, _, rfl, ?_, rfl, ?_, ?_⟩
  · simp only [length_append, length_range', length_take, length_reverse]
    omega
  · simp only
    omega
  · intro l hl
    simp only
    generalize hr : n - min n (m.numChunks - m.numAllocatedChunks) = r
    generalize min n (m.numChunks - m.numAllocatedChunks) = f
    have hfree : ((m.freeList.reverse.drop r).reverse ++ m.freeList.reverse.take r).Perm m.freeList := by
      refine (perm_append_comm.trans ((reverse_perm _).append_left _)).trans ?_
      rw [take_append_drop]
      exact reverse_perm _
    have hrange : List.range (m.numAllocatedChunks + f) =
        List.range m.numAllocatedChunks ++ List.range' m.numAllocatedChunks f := by
      rw [range_eq_range', range_eq_range', ← range'_append_1]
      simp
    rw [hrange]
    calc (m.freeList.reverse.drop r).reverse ++ (List.range' m.numAllocatedChunks f ++ m.freeList.reverse.take r ++ l)
        |>.Perm (((m.freeList.reverse.drop r).reverse ++ m.freeList.reverse.take r) ++ l ++
          List.range' m.numAllocatedChunks f) := by
          simp only [append_assoc]
          refine Perm.append_left _ ?_
          rw [← append_assoc (m.freeList.reverse.take r)]
          exact perm_append_comm
      _ |>.Perm (m.freeList ++ l ++ List.range' m.numAllocatedChunks f) :=
          (hfree.append_right l).append_right _
      _ |>.Perm _ := hl.append_right _

/-! ### Storing -/

theorem Conserved.congr (h : m.Conserved) (hm : m.SameShell m') (hp : m'.policy = m.policy)
    (hE : m'.numEvictableCacheChunks = m.numEvictableCacheChunks)
    (hW : m'.numWritePendingChunks = m.numWritePendingChunks) : m'.Conserved := by
  obtain ⟨hn, ha, hf⟩ := hm
  refine ⟨hp ▸ h.sound, ?_, ?_, ?_, ?_, ?_⟩
  · rw [hf, ha, held, hp]; exact h.ids
  · rw [hn, ha]; exact h.allocated_le
  · rw [hE, held, hp]; exact h.evictable
  · rw [hW, held, hp]; exact h.pending
  · rw [held, hp]; exact h.refCnt_range

omit [DecidableEq κ] [CachePolicy κ P] [LawfulCachePolicy κ P] in
theorem addEvent_same (m : CPUOffloadingManager κ P) (keys : List κ) (removed : Bool) :
    m.addEvent keys removed = { m with events := (m.addEvent keys removed).events } := by
  unfold addEvent
  split <;> rfl

theorem Conserved.addEvent (h : m.Conserved) (keys : List κ) (removed : Bool) :
    (m.addEvent keys removed).Conserved := by
  rw [addEvent_same]
  exact h.congr ⟨rfl, rfl, rfl⟩ rfl rfl rfl

theorem countP_evictable_le (l : List (κ × ChunkStatus)) (kept : List κ) : l.countP (Evictable kept) ≤ numAt l 0 := by
  refine countP_mono_left fun e _ he => ?_
  exact decide_eq_true (of_decide_eq_true he).1

/-- Eviction makes the room it is asked for out of idle chunks that need not be kept, or changes nothing. -/
theorem makeRoom_spec (h : m.Conserved) (n : Nat) (kept : List κ) : if n ≤ m.held.countP (Evictable kept) then
      ∃ gone m', m.makeRoom n kept = .ok (some (gone.map Prod.fst), m') ∧ (∀ e ∈ gone, Evictable kept e) ∧
        m'.Conserved ∧ m.held.Perm (gone ++ m'.held) ∧ m'.getNumFreeChunks = m.getNumFreeChunks + n ∧
        m'.counts = m.counts else m.makeRoom n kept = .ok (none, m) := by
  have hE := h.evictable
  have hle := countP_evictable_le m.held kept
  have hspec := evict_spec n kept h.sound
  unfold makeRoom
  split
  · next hn =>
    rw [if_pos hn] at hspec
    by_cases h0 : 0 < n
    · obtain ⟨victims, q, hq, hlen, hev, hs, hp⟩ := hspec
      have h0s : numAt victims 0 = victims.length :=
        countP_eq_length.2 fun e he => decide_eq_true (of_decide_eq_true (hev e he)).1
      have h1s : numAt victims (-1) = 0 := by
        refine countP_eq_zero.2 fun e he => ?_
        have := (of_decide_eq_true (hev e he)).1
        simp [this]
      have hpos : 0 ≤ m.numEvictableCacheChunks - victims.length := by omega
      rw [if_pos h0, if_neg (by omega), hq]
      simp only [ok_bind, ensure_pos hpos]
      refine ⟨victims, _, rfl, hev, ?_, hp, ?_, rfl⟩
      · exact h.drop hs hp rfl rfl rfl (by simp only [h0s]; omega) (by simp [h1s])
      · have := h.allocated_le
        simp only [getNumFreeChunks, length_append, length_map]
        omega
    · rw [if_neg h0]
      exact ⟨[], m, rfl, by simp, h, Perm.refl _, by omega, rfl⟩
  · next hn =>
    rw [if_neg hn] at hspec
    rw [if_pos (by omega)]
    split
    · rfl
    · rw [hspec]
      rfl

theorem allocate_spec (h : m.Conserved) {ks : List κ} (evicted : List κ) (hnd : ks.Nodup)
    (hnew : ∀ k ∈ ks, k ∉ m.held.map Prod.fst) (hroom : ks.length ≤ m.getNumFreeChunks) :
    ∃ ids m', m.allocate ks evicted = .ok (⟨ks, ids, evicted⟩, m') ∧ ids.length = ks.length ∧ m'.Conserved ∧
      m'.held.Perm (ks.zip (ids.map fun i => { chunkId := i }) ++ m.held) ∧ m'.counts = m.counts := by
  have heq := m.addEvent_same evicted true
  have he := h.addEvent evicted true
  have hpol : (m.addEvent evicted true).policy = m.policy := by rw [heq]
  have hfree : (m.addEvent evicted true).getNumFreeChunks = m.getNumFreeChunks := by rw [heq]; rfl
  obtain ⟨ids, m₁, hm₁, hlen, hm₁eq, hle, hids⟩ :=
    allocateChunks_spec (m := m.addEvent evicted true) (n := ks.length) he.allocated_le (by rw [hfree]; exact hroom)
  set new : List (κ × ChunkStatus) := ks.zip (ids.map fun i => { chunkId := i }) with hnewdef
  have hkeys : new.map Prod.fst = ks := map_fst_zip (by simp [hlen])
  have hnewIds : (new.map fun e => e.2.chunkId) = ids := by
    have hsnd : new.map Prod.snd = ids.map fun i => { chunkId := i } := map_snd_zip (by simp [hlen])
    have hcomp : (new.map fun e => e.2.chunkId) = (new.map Prod.snd).map ChunkStatus.chunkId := by simp
    rw [hcomp, hsnd, map_map]
    simp [Function.comp_def]
  have hfresh : ∀ e ∈ new, e.2.refCnt = -1 := by
    intro e hm
    obtain ⟨i, -, hi⟩ := mem_map.1 (of_mem_zip (a := e.1) (b := e.2) hm).2
    rw [← hi]
  have hpol₁ : m₁.policy = m.policy := by rw [hm₁eq]; exact hpol
  obtain ⟨hs, hins⟩ := insertAll_spec (p := m₁.policy) (l := new) (hpol₁ ▸ h.sound) (hkeys.symm ▸ hnd)
    (fun e hm => hpol₁ ▸ hnew e.1 (hkeys ▸ mem_map_of_mem hm)) (fun e hm => by rw [hfresh e hm]; decide)
  have h0 : numAt new 0 = 0 := countP_eq_zero.2 fun e hm => by simp [hfresh e hm]
  have h1 : numAt new (-1) = ks.length := by
    rw [← hkeys, length_map]
    exact countP_eq_length.2 fun e hm => by simp [hfresh e hm]
  have hp : (chunks (new.foldl (fun p e => CachePolicy.insert p e.1 e.2) m₁.policy)).Perm (new ++ m.held) := by
    rw [held, ← hpol₁]
    exact hins
  have hcount : ∀ n, numAt (new ++ m.held) n = numAt new n + numAt m.held n := fun n => countP_append ..
  refine ⟨ids, { m₁ with
    policy := new.foldl (fun p e => CachePolicy.insert p e.1 e.2) m₁.policy
    numWritePendingChunks := m₁.numWritePendingChunks + ks.length }, ?_, hlen, ?_, hp, ?_⟩
  · unfold allocate
    simp only [hm₁, ok_bind, length_map, ensure_pos hlen, map_map]
    simp [Function.comp_def, pure, Except.pure, hnewdef]
  · have hE := h.evictable
    have hW := h.pending
    refine ⟨hs, ?_, ?_, ?_, ?_, ?_⟩
    · have hids' := hids (m.held.map fun e => e.2.chunkId) (by rw [heq]; exact h.ids)
      refine ((hp.map fun e => e.2.chunkId).append_left _).trans ?_
      rw [map_append, hnewIds]
      exact hids'
    · show m₁.numAllocatedChunks ≤ m₁.numChunks
      rw [hm₁eq]
      exact hle
    · show m₁.numEvictableCacheChunks = numAt (chunks (new.foldl _ m₁.policy)) 0
      rw [numAt_perm hp, hcount, h0, hm₁eq, heq]
      simpa using hE
    · show m₁.numWritePendingChunks + ks.length = numAt (chunks (new.foldl _ m₁.policy)) (-1)
      rw [numAt_perm hp, hcount, h1, hm₁eq, heq]
      simp only
      omega
    · intro e hm
      rcases mem_append.1 (hp.mem_iff.1 hm) with hm | hm
      · rw [hfresh e hm]; decide
      · exact h.refCnt_range e hm
  · show m₁.counts = _
    rw [hm₁eq, heq]

omit [CachePolicy κ P] [LawfulCachePolicy κ P] in
theorem reusedKeys_sublist (m : CPUOffloadingManager κ P) (keys : List κ) : (m.reusedKeys keys).Sublist keys := by
  unfold reusedKeys
  split
  · exact filter_sublist
  · exact Sublist.refl _

omit [LawfulCachePolicy κ P] in
theorem keysToStore_sublist (m : CPUOffloadingManager κ P) (keys : List κ) : (m.keysToStore keys).Sublist keys :=
  filter_sublist.trans (m.reusedKeys_sublist keys)

theorem mem_held_iff (h : Sound m.policy) : k ∈ m.held.map Prod.fst ↔ ∃ c, CachePolicy.get m.policy k = some c := by
  simp only [mem_map, Prod.exists, exists_and_right, exists_eq_right]
  exact exists_congr fun c => (get_eq_some h).symm

theorem not_held_of_mem_keysToStore (h : Sound m.policy) (hk : k ∈ m.keysToStore keys) : k ∉ m.held.map Prod.fst := by
  rw [mem_held_iff h]
  rintro ⟨c, hc⟩
  simpa [hc] using (mem_filter.1 hk).2

def needed (m : CPUOffloadingManager κ P) (keys : List κ) : Nat := (m.keysToStore keys).length - m.getNumFreeChunks

/-- `prepare_store`, in a conserved state: it fails exactly if too few idle chunks outside the keys it
protects are there, and then only the counts have moved; else the new keys are held and the chunks that
are gone were idle and unprotected. -/
theorem prepareStore_spec (h : m.Conserved) (hnd : keys.Nodup) :
    if m.needed keys ≤ m.held.countP (Evictable (m.reusedKeys keys)) then
      ∃ ids gone m', m.prepareStore keys = .ok (some ⟨m.keysToStore keys, ids, gone.map Prod.fst⟩, m') ∧
        m'.Conserved ∧ ids.length = (m.keysToStore keys).length ∧ (∀ e ∈ gone, Evictable (m.reusedKeys keys) e) ∧
        (gone ++ m'.held).Perm (((m.keysToStore keys).zip (ids.map fun i => { chunkId := i })) ++ m.held)
    else m.prepareStore keys = .ok (none, { m with counts := m.countsAfter keys }) := by
  have hc : Conserved { m with counts := m.countsAfter keys } := h.congr ⟨rfl, rfl, rfl⟩ rfl rfl rfl
  have hroom := makeRoom_spec hc (m.needed keys) (m.reusedKeys keys)
  unfold prepareStore
  dsimp only
  split
  · next hle =>
    rw [if_pos hle] at hroom
    by_cases hnil : m.keysToStore keys = []
    · rw [if_pos hnil, hnil]
      exact ⟨[], [], _, rfl, hc, rfl, by simp, Perm.refl _⟩
    · obtain ⟨gone, m₁, hm₁, hev, hcons, hp, hfree, -⟩ := hroom
      have hnew : ∀ k ∈ m.keysToStore keys, k ∉ m₁.held.map Prod.fst := by
        intro k hk hm
        refine not_held_of_mem_keysToStore h.sound hk ?_
        have := (hp.map Prod.fst).mem_iff.2 (by rw [map_append]; exact mem_append_right _ hm)
        exact this
      obtain ⟨ids, m', hm', hlen, hcons', hp', -⟩ := allocate_spec hcons (gone.map Prod.fst)
        (hnd.sublist (m.keysToStore_sublist keys)) hnew (by
          rw [hfree]
          show (m.keysToStore keys).length ≤ m.getNumFreeChunks + m.needed keys
          unfold needed
          omega)
      rw [if_neg hnil, show (m.keysToStore keys).length - m.getNumFreeChunks = m.needed keys from rfl, hm₁]
      simp only [ok_bind, hm']
      refine ⟨ids, gone, m', rfl, hcons', hlen, hev, ?_⟩
      calc gone ++ m'.held
          |>.Perm (gone ++ ((m.keysToStore keys).zip (ids.map fun i => { chunkId := i }) ++ m₁.held)) :=
            hp'.append_left gone
        _ |>.Perm ((m.keysToStore keys).zip (ids.map fun i => { chunkId := i }) ++ (gone ++ m₁.held)) := by
            rw [← append_assoc, ← append_assoc]
            exact perm_append_comm.append_right _
        _ |>.Perm ((m.keysToStore keys).zip (ids.map fun i => { chunkId := i }) ++ m.held) :=
            hp.symm.append_left _
  · next hle =>
    rw [if_neg hle] at hroom
    have hnil : m.keysToStore keys ≠ [] := by
      intro hnil
      exact hle (by simp [needed, hnil])
    rw [if_neg hnil, show (m.keysToStore keys).length - m.getNumFreeChunks = m.needed keys from rfl, hroom]
    rfl

end CPUOffloadingManager

end VllmCore.KvOffload
