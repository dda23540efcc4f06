import VllmCore.KvOffload.CpuPool
import VllmCore.KvOffload.Lru
import VllmCore.KvOffload.Arc

/-! # Runs of the CPU offloading manager

The pool stays conserved along every run, for both policies. What `prepare_store` keeps back from
eviction is what the access counts leave of its argument: a held key that is no longer tracked can be
evicted by the very call that offers it (`prepareStore_evicts_own_key`). -/

namespace VllmCore.KvOffload
open Except List Dict

namespace CPUOffloadingManager

/-! ### The access counts of one offer -/

section Tracker
variable {κ : Type} [DecidableEq κ] {d counts : Dict κ Nat} {keys : List κ}

/-- The tracked keys of an offer end up behind all others, counted once more. -/
theorem foldl_countTracked (hnd : keys.Nodup) {kept : List κ} {U V : List (κ × Nat)} (hd : d.entries = U ++ V)
    (hV : V.length = kept.length) (hkept : ∀ k ∈ keys, k ∉ kept ∧ k ∉ V.map Prod.fst) :
    ∃ U' V', (keys.foldl countTracked (d, kept)).1.entries = U' ++ V' ∧
      V'.length = (keys.foldl countTracked (d, kept)).2.length ∧ (∀ e ∈ V, e ∈ V') ∧
      ∀ k ∈ keys, ∀ n, d.get? k = some n → (k, n + 1) ∈ V' := by
  induction keys generalizing d kept U V with
  | nil => exact ⟨U, V, hd, hV, fun e he => he, by simp⟩
  | cons k keys ih =>
    rw [nodup_cons] at hnd
    obtain ⟨hk, hrest⟩ := forall_mem_cons.1 hkept
    rw [foldl_cons]
    cases hget : d.get? k with
    | none =>
      rw [show countTracked (d, kept) k = (d, kept) by simp [countTracked, hget]]
      obtain ⟨U', V', h1, h2, h3, h4⟩ := ih hnd.2 hd hV hrest
      refine ⟨U', V', h1, h2, h3, ?_⟩
      intro a ha n hn
      rcases mem_cons.1 ha with rfl | ha
      · rw [hget] at hn; cases hn
      · exact h4 a ha n hn
    | some n =>
      rw [show countTracked (d, kept) k = ((d.moveToEnd k).set k (n + 1), kept.insert k) by simp [countTracked, hget]]
      have hVk : V.filter (fun e => e.1 ≠ k) = V :=
        filter_eq_self.2 fun e he => by
          simpa using fun h : e.1 = k => hk.2 (h ▸ mem_map_of_mem he)
      have hd' : ((d.moveToEnd k).set k (n + 1)).entries = U.filter (fun e => e.1 ≠ k) ++ (V ++ [(k, n + 1)]) := by
        rw [entries_moveToEnd_set hget, Dict.erase]
        simp only [hd, filter_append, hVk, append_assoc]
      have hlen : (V ++ [(k, n + 1)]).length = (kept.insert k).length := by
        rw [length_insert_of_not_mem hk.1, length_append, hV, length_singleton]
      obtain ⟨U', V', h1, h2, h3, h4⟩ := ih hnd.2 hd' hlen (by
        intro a ha
        have hne : a ≠ k := fun h => hnd.1 (h ▸ ha)
        refine ⟨?_, ?_⟩
        · rw [mem_insert_iff, not_or]
          exact ⟨hne, (hrest a ha).1⟩
        · rw [map_append, mem_append, not_or]
          exact ⟨(hrest a ha).2, by simpa using hne⟩)
      refine ⟨U', V', h1, h2, fun e he => h3 e (mem_append_left _ he), ?_⟩
      intro a ha i hi
      rcases mem_cons.1 ha with rfl | ha
      · rw [hget] at hi
        cases hi
        exact h3 _ (mem_append_right _ (mem_singleton_self _))
      · refine h4 a ha i ?_
        have hne : a ≠ k := fun h => hnd.1 (h ▸ ha)
        rw [get?_set, if_neg hne, get?_moveToEnd, hi]

theorem foldl_startTracking (maxTrackerSize : Nat) (keys : List κ) {U V : List (κ × Nat)} (hd : d.entries = U ++ V) :
    ∃ U' V', (keys.foldl (startTracking maxTrackerSize) (d, U.length)).1.entries = U' ++ V' ∧ ∀ e ∈ V, e ∈ V' := by
  induction keys generalizing d U V with
  | nil => exact ⟨U, V, hd, fun e he => he⟩
  | cons k keys ih =>
    rw [foldl_cons]
    have hnew : ∀ {d' : Dict κ Nat} {U' : List (κ × Nat)}, d'.entries = U' ++ V → d'.get? k = none →
        (d'.set k 1).entries = U' ++ (V ++ [(k, 1)]) := by
      intro d' U' hd' hk
      rw [entries_set_of_none hk, hd', append_assoc]
    have hstep : ∃ d' U' V', startTracking maxTrackerSize (d, U.length) k = (d', U'.length) ∧
        d'.entries = U' ++ V' ∧ ∀ e ∈ V, e ∈ V' := by
      unfold startTracking
      split
      · exact ⟨d, U, V, rfl, hd, fun e he => he⟩
      · next hk =>
        have hnone : d.get? k = none := by simpa [Dict.contains] using hk
        split
        · split
          · exact ⟨d, U, V, rfl, hd, fun e he => he⟩
          · next hU =>
            cases U with
            | nil => exact absurd rfl hU
            | cons u U =>
              have hnone' : (d.dropFirst 1).get? k = none := by
                by_contra hne
                obtain ⟨w, hw⟩ := Option.ne_none_iff_exists'.1 hne
                rw [mem_dropFirst hw] at hnone
                cases hnone
              have htail : (d.dropFirst 1).entries = U ++ V := by simp [Dict.dropFirst, hd]
              exact ⟨_, U, _, rfl, hnew htail hnone', fun e he => mem_append_left _ he⟩
        · exact ⟨_, U, _, rfl, hnew hd hnone, fun e he => mem_append_left _ he⟩
    obtain ⟨d', U', V', hs, hd', hsub⟩ := hstep
    rw [hs]
    obtain ⟨U₁, V₁, h1, h2⟩ := ih hd'
    exact ⟨U₁, V₁, h1, fun e he => h2 e (hsub e he)⟩

theorem recordAccesses_get (maxTrackerSize : Nat) (hnd : keys.Nodup) {k : κ} (hk : k ∈ keys) {n : Nat}
    (hn : counts.get? k = some n) : (recordAccesses maxTrackerSize counts keys).get? k = some (n + 1) := by
  obtain ⟨U, V, hd, hlen, -, hcounted⟩ := foldl_countTracked (d := counts) (U := counts.entries) (V := []) hnd
    (by simp) (rfl : _ = ([] : List κ).length) (by simp)
  unfold recordAccesses
  generalize keys.foldl countTracked (counts, []) = st at hd hlen
  obtain ⟨d, kept⟩ := st
  dsimp only at hd hlen ⊢
  have hU : d.entries.length - kept.length = U.length := by
    rw [hd, length_append, hlen]
    omega
  obtain ⟨U', V', hd', hsub⟩ := foldl_startTracking maxTrackerSize keys hd
  rw [hU, ← mem_entries, hd']
  exact mem_append_right _ (hsub _ (hcounted k hk n hn))

end Tracker

/-! ### What a store promises -/

section Store
variable {κ P : Type} [DecidableEq κ] [CachePolicy κ P] [LawfulCachePolicy κ P] {m : CPUOffloadingManager κ P}
  {keys : List κ}

/-- Every held key of the argument is tracked, and this offer reaches the threshold. Without access
counts there is nothing to meet. -/
def Familiar (m : CPUOffloadingManager κ P) (keys : List κ) : Prop :=
  ∀ counts, m.counts = some counts → ∀ k ∈ keys, (CachePolicy.get m.policy k).isSome →
    ∃ n, counts.get? k = some n ∧ m.storeThreshold ≤ n + 1

/-- `prepare_store` returns `None` iff too few idle chunks outside its argument are held, and then leaves
everything but the access counts as it was; it evicts idle chunks outside its argument only. -/
def StoreSpec (m : CPUOffloadingManager κ P) (keys : List κ) : Prop :=
  ∃ res m', m.prepareStore keys = .ok (res, m') ∧
    (res = none ↔ m.held.countP (Evictable keys) < m.needed keys) ∧
    (res = none → m' = { m with counts := m.countsAfter keys }) ∧
    (∀ out, res = some out → ∀ k ∈ out.evictedKeys,
      k ∉ keys ∧ ∃ c, CachePolicy.get m.policy k = some c ∧ c.refCnt = 0) ∧
    ∀ k c, CachePolicy.get m.policy k = some c → k ∈ keys ∨ c.refCnt ≠ 0 → CachePolicy.get m'.policy k = some c

omit [LawfulCachePolicy κ P] in
theorem mem_reusedKeys (hnd : keys.Nodup) (hf : m.Familiar keys) {k : κ} (hheld : (CachePolicy.get m.policy k).isSome) :
    k ∈ m.reusedKeys keys ↔ k ∈ keys := by
  refine ⟨fun h => (m.reusedKeys_sublist keys).mem h, fun hk => ?_⟩
  unfold reusedKeys countsAfter
  cases hc : m.counts with
  | none => exact hk
  | some counts =>
    obtain ⟨n, hn, hth⟩ := hf counts hc k hk hheld
    have hget := recordAccesses_get m.maxTrackerSize hnd hk hn
    exact mem_filter.2 ⟨hk, by simpa [Dict.getD, hget] using hth⟩

theorem storeSpec (h : m.Conserved) (hnd : keys.Nodup) (hf : m.Familiar keys) : m.StoreSpec keys := by
  have hheld : ∀ e ∈ m.held, (CachePolicy.get m.policy e.1).isSome := fun e he => by
    rw [(LawfulCachePolicy.get_eq_some h.sound).2 he]; rfl
  have hiff : ∀ e ∈ m.held, Evictable (m.reusedKeys keys) e = true ↔ Evictable keys e = true := by
    intro e he
    simp only [Evictable, decide_eq_true_eq, mem_reusedKeys hnd hf (hheld e he)]
  have hcount : m.held.countP (Evictable (m.reusedKeys keys)) = m.held.countP (Evictable keys) :=
    countP_congr hiff
  have hspec := prepareStore_spec h hnd
  rw [hcount] at hspec
  split at hspec
  · next hle =>
    obtain ⟨ids, gone, m', hm', hcons, -, hev, hp⟩ := hspec
    have hgone : ∀ e ∈ gone, e ∈ m.held := by
      intro e he
      rcases mem_append.1 (hp.mem_iff.1 (mem_append_left _ he)) with hz | hm
      · obtain ⟨i, -, hi⟩ := mem_map.1 (of_mem_zip (a := e.1) (b := e.2) hz).2
        have h0 := (of_decide_eq_true (hev e he)).1
        rw [← hi] at h0
        cases h0
      · exact hm
    have hevict : ∀ e ∈ gone, e.2.refCnt = 0 ∧ e.1 ∉ keys := fun e he =>
      of_decide_eq_true ((hiff e (hgone e he)).1 (hev e he))
    refine ⟨_, m', hm', ?_, (fun hn => by cases hn), ?_, ?_⟩
    · exact ⟨(fun hn => by cases hn), fun hlt => absurd hle (by omega)⟩
    · intro out hout k hk
      cases hout
      obtain ⟨e, he, rfl⟩ := mem_map.1 hk
      exact ⟨(hevict e he).2, e.2, (LawfulCachePolicy.get_eq_some h.sound).2 (hgone e he), (hevict e he).1⟩
    · intro k c hk hor
      rw [LawfulCachePolicy.get_eq_some h.sound] at hk
      rw [LawfulCachePolicy.get_eq_some hcons.sound]
      rcases mem_append.1 (hp.mem_iff.2 (mem_append_right _ hk)) with hg | hm
      · obtain ⟨h0, hno⟩ := hevict _ hg
        rcases hor with hor | hor
        · exact absurd hor hno
        · exact absurd h0 hor
      · exact hm
  · next hle =>
    refine ⟨none, _, hspec, ?_, fun _ => rfl, (fun _ hn => by cases hn), fun k c hk _ => hk⟩
    exact ⟨fun _ => by omega, fun _ => rfl⟩

end Store

/-! ### Runs -/

inductive Call (κ : Type) where
  | prepareStore (keys : List κ)
  | completeStore (keys : List κ) (success : Bool)
  | prepareLoad (keys : List κ)
  | completeLoad (keys : List κ)
  | reserveHits (keys : List κ)
  | releaseReservation (keys : List κ)
  | touch (keys : List κ)
  | resetCache

section Runs
variable {κ P : Type} [DecidableEq κ] [CachePolicy κ P] {m m' : CPUOffloadingManager κ P} {keys : List κ}

def apply (m : CPUOffloadingManager κ P) : Call κ → Except Err (CPUOffloadingManager κ P)
  | .prepareStore keys => do
    let res ← m.prepareStore keys
    pure res.2
  | .completeStore keys success => m.completeStore keys success
  | .prepareLoad keys => do
    let res ← m.prepareLoad keys
    pure res.2
  | .completeLoad keys => m.completeLoad keys
  | .reserveHits keys => do
    let res ← m.reserveHits keys
    pure res.2
  | .releaseReservation keys => m.releaseReservation keys
  | .touch keys => .ok (m.touch keys)
  | .resetCache => .ok m.resetCache

/-- No chunk gets more pins than its count can hold. -/
def pinsFit (m : CPUOffloadingManager κ P) (keys : List κ) : Bool :=
  keys.all fun k => (CachePolicy.get m.policy k).all fun c : ChunkStatus =>
    decide (c.refCnt + keys.count k < 2 ^ 31)

/-- Only `prepare_store` relies on its keys being distinct. -/
def Call.Allowed (m : CPUOffloadingManager κ P) : Call κ → Prop
  | .prepareStore keys => keys.Nodup
  | .prepareLoad keys | .reserveHits keys => m.pinsFit keys = true
  | _ => True

/-- The states of all runs from a new manager. A completion or a release that matches an earlier call
finds its chunks in use; nothing more is asked of one here than that it does not raise. -/
inductive Reachable : CPUOffloadingManager κ P → Prop
  | init (numChunks : Nat) (enableEvents : Bool) (storeThreshold maxTrackerSize : Nat) :
    Reachable (init numChunks enableEvents storeThreshold maxTrackerSize)
  | call {m m' : CPUOffloadingManager κ P} {c : Call κ} :
    Reachable m → c.Allowed m → m.apply c = .ok m' → Reachable m'

def run (m : CPUOffloadingManager κ P) (calls : List (Call κ)) : Except Err (CPUOffloadingManager κ P) :=
  calls.foldlM apply m

variable [LawfulCachePolicy κ P]

section
variable (h : m.Conserved)
include h

/-- A loop that pins some of the keys. -/
theorem pins_conserved {α : Type} {f : α × CPUOffloadingManager κ P → κ → Except Err (α × CPUOffloadingManager κ P)}
    (hf : ∀ st k st', f st k = .ok st' → st'.2 = st.2 ∨
      ∃ c, CachePolicy.get st.2.policy k = some c ∧ c.isReady ∧ st.2.pin k c = .ok st'.2)
    (hfit : m.pinsFit keys = true) {a : α} {res : α × CPUOffloadingManager κ P}
    (hm : keys.foldlM f (a, m) = .ok res) : res.2.Conserved := by
  induction keys generalizing m a with
  | nil =>
    cases hm
    exact h
  | cons k keys ih =>
    rw [foldlM_cons, bind_eq_ok] at hm
    obtain ⟨⟨a', m₁⟩, hstep, hm⟩ := hm
    simp only [pinsFit, all_eq_true, Option.all_eq_true, decide_eq_true_eq, forall_mem_cons, count_cons_self] at hfit
    obtain ⟨hk, hkeys⟩ := hfit
    rcases hf _ _ _ hstep with heq | ⟨c, hc, hr, hpin⟩
    · obtain rfl : m₁ = m := heq
      refine ih h ?_ hm
      simp only [pinsFit, all_eq_true, Option.all_eq_true, decide_eq_true_eq]
      intro x hx d hd
      have := hkeys x hx d hd
      rw [count_cons] at this
      split at this <;> omega
    · have hlt := hk c hc
      obtain ⟨m₂, hm₂, hcons, hbecomes⟩ := pin_spec h hc hr (by omega)
      cases hpin.symm.trans hm₂
      refine ih hcons ?_ hm
      simp only [pinsFit, all_eq_true, Option.all_eq_true, decide_eq_true_eq]
      intro x hx d hd
      rw [hbecomes x] at hd
      split at hd
      · next hxk =>
        cases hd
        subst hxk
        push_cast at hlt ⊢
        omega
      · next hxk =>
        have := hkeys x hx d hd
        rwa [count_cons_of_ne (Ne.symm hxk)] at this

theorem prepareLoad_conserved (hfit : m.pinsFit keys = true) {res : List Nat × CPUOffloadingManager κ P}
    (hm : m.prepareLoad keys = .ok res) : res.2.Conserved := by
  refine pins_conserved h (fun st k st' hy => .inr ?_) hfit hm
  unfold prepareLoadOne at hy
  split at hy
  · cases hy
  · next c hc =>
    obtain ⟨_, hr, hy⟩ := bind_eq_ok.1 hy
    obtain ⟨m₁, hpin, hy⟩ := bind_eq_ok.1 hy
    cases pure_eq_ok.1 hy
    exact ⟨c, hc, ensure_eq_ok.1 hr, hpin⟩

theorem reserveHits_conserved (hfit : m.pinsFit keys = true) {res : List κ × CPUOffloadingManager κ P}
    (hm : m.reserveHits keys = .ok res) : res.2.Conserved := by
  refine pins_conserved h (fun st k st' hy => ?_) hfit hm
  unfold reserveHit at hy
  split at hy
  · cases hy
    exact .inl rfl
  · next c hc =>
    split at hy
    · next hr =>
      obtain ⟨m₁, hpin, hy⟩ := bind_eq_ok.1 hy
      cases pure_eq_ok.1 hy
      exact .inr ⟨c, hc, hr, hpin⟩
    · cases hy
      exact .inl rfl

theorem completeStore_conserved {success : Bool} (hm : m.completeStore keys success = .ok m') : m'.Conserved := by
  unfold completeStore at hm
  split at hm
  · have hfold : ∀ (l : List κ) (st : List κ × CPUOffloadingManager κ P), st.2.Conserved →
        (l.foldl storeReady st).2.Conserved := by
      intro l
      induction l with
      | nil => exact fun st hst => hst
      | cons k l ih => exact fun st hst => ih _ (storeReady_conserved hst k)
    cases hm
    exact (hfold keys ([], m) h).addEvent _ _
  · exact foldlM_inv (P := Conserved) (fun k _ x y hx hy => storeFailed_conserved hx hy) hm h

theorem resetCache_conserved : m.resetCache.Conserved := by
  have hnil : m.resetCache.held = [] := LawfulCachePolicy.chunks_clear m.policy
  refine ⟨LawfulCachePolicy.sound_clear h.sound, ?_, Nat.zero_le _, ?_, ?_, ?_⟩
  · rw [hnil]; exact Perm.refl _
  · rw [hnil]; rfl
  · rw [hnil]; rfl
  · rw [hnil]; simp

theorem touch_conserved (keys : List κ) : (m.touch keys).Conserved := by
  obtain ⟨hs, hp⟩ := LawfulCachePolicy.touch_perm keys h.sound
  refine ⟨hs, ?_, h.allocated_le, ?_, ?_, fun e he => h.refCnt_range e (hp.mem_iff.1 he)⟩
  · exact ((hp.map _).append_left _).trans h.ids
  · exact h.evictable.trans (congrArg _ (numAt_perm hp 0).symm)
  · exact h.pending.trans (congrArg _ (numAt_perm hp (-1)).symm)

theorem apply_conserved {c : Call κ} (hd : c.Allowed m) (hm : m.apply c = .ok m') : m'.Conserved := by
  cases c with
  | prepareStore keys =>
    have hspec := prepareStore_spec h hd
    split at hspec
    · obtain ⟨ids, gone, m₁, hm₁, hcons, -⟩ := hspec
      simp only [apply, hm₁] at hm
      cases hm
      exact hcons
    · simp only [apply, hspec] at hm
      cases hm
      exact h.congr ⟨rfl, rfl, rfl⟩ rfl rfl rfl
  | completeStore keys success => exact completeStore_conserved h hm
  | prepareLoad keys =>
    obtain ⟨res, hres, hm⟩ := bind_eq_ok.1 hm
    cases pure_eq_ok.1 hm
    exact prepareLoad_conserved h hd hres
  | completeLoad keys => exact foldlM_inv (P := Conserved) (fun k _ x y hx hy => unpin_conserved hx hy) hm h
  | reserveHits keys =>
    obtain ⟨res, hres, hm⟩ := bind_eq_ok.1 hm
    cases pure_eq_ok.1 hm
    exact reserveHits_conserved h hd hres
  | releaseReservation keys =>
    exact foldlM_inv (P := Conserved) (fun k _ x y hx hy => unpin_conserved hx hy) hm h
  | touch keys =>
    cases hm
    exact touch_conserved h keys
  | resetCache =>
    cases hm
    exact resetCache_conserved h

end

theorem Reachable.conserved (h : m.Reachable) : m.Conserved := by
  induction h with
  | init n ev th mx => exact init_conserved n ev th mx
  | call _ hd hm ih => exact apply_conserved ih hd hm

end Runs

/-! ### Both policies -/

/-- Along every run the pool is conserved, the idle list of LRU is exact and the maps of ARC are disjoint
and bounded; a store keeps its promise whenever the access counts let all held keys of its argument
pass. -/
theorem pool_conserved {κ F : Type} [DecidableEq κ] [TargetSize F] :
    (∀ m : CPUOffloadingManager κ (LRUCachePolicy κ), m.Reachable →
      m.Conserved ∧ m.policy.Sound ∧ ∀ keys, keys.Nodup → m.Familiar keys → m.StoreSpec keys) ∧
    ∀ m : CPUOffloadingManager κ (ARCCachePolicy κ F), m.Reachable →
      m.Conserved ∧ m.policy.Sound ∧ ∀ keys, keys.Nodup → m.Familiar keys → m.StoreSpec keys := by
  refine ⟨fun m hm => ?_, fun m hm => ?_⟩
  · have h := hm.conserved
    exact ⟨h, h.sound, fun keys hnd hf => storeSpec h hnd hf⟩
  · have h := hm.conserved
    exact ⟨h, h.sound, fun keys hnd hf => storeSpec h hnd hf⟩

/-- Two keys stored and ready in a pool of two, one of them being loaded, with access counts and a threshold of two. -/
theorem pool_conserved_familiar :
    (∃ m : CPUOffloadingManager Nat (LRUCachePolicy Nat), m.Reachable ∧ CachePolicy.get m.policy 1 = some ⟨1, 1⟩ ∧
      m.Conserved ∧ m.StoreSpec [0, 2]) ∧
    ∃ m : CPUOffloadingManager Nat (ARCCachePolicy Nat Rat), m.Reachable ∧ CachePolicy.get m.policy 1 = some ⟨1, 1⟩ ∧
      m.Conserved ∧ m.StoreSpec [0, 2] := by
  have hfam : ∀ {P : Type} [CachePolicy Nat P] {m : CPUOffloadingManager Nat P},
      (∃ c, m.counts = some c ∧ c.get? 0 = some 2) ∧ m.storeThreshold = 2 ∧ CachePolicy.get m.policy 2 = none →
      m.Familiar [0, 2] := by
    rintro P _ m ⟨⟨c, hc, h0⟩, hth, h2⟩ counts hcounts k hk hheld
    rw [hc] at hcounts
    cases hcounts
    rcases mem_pair.1 hk with rfl | rfl
    · exact ⟨2, h0, by omega⟩
    · rw [h2] at hheld
      cases hheld
  have hruns : (∃ m : CPUOffloadingManager Nat (LRUCachePolicy Nat), m.Reachable ∧
        CachePolicy.get m.policy 1 = some ⟨1, 1⟩ ∧ m.Familiar [0, 2]) ∧
      ∃ m : CPUOffloadingManager Nat (ARCCachePolicy Nat Rat), m.Reachable ∧
        CachePolicy.get m.policy 1 = some ⟨1, 1⟩ ∧ m.Familiar [0, 2] := by
    have hnd : [0, 1].Nodup := by decide
    exact ⟨⟨_, .call (c := .touch [1, 0]) (.call (c := .prepareLoad [1]) (.call (c := .completeStore [0, 1] true)
      (.call (c := .prepareStore [0, 1]) (.call (c := .prepareStore [0, 1]) (.init 2 true 2 4) hnd rfl) hnd rfl)
      trivial rfl) rfl rfl) trivial rfl, rfl, hfam ⟨⟨_, rfl, rfl⟩, rfl, rfl⟩⟩,
      _, .call (c := .touch [1, 0]) (.call (c := .prepareLoad [1]) (.call (c := .completeStore [0, 1] true)
      (.call (c := .prepareStore [0, 1]) (.call (c := .prepareStore [0, 1]) (.init 2 true 2 4) hnd rfl) hnd rfl)
      trivial rfl) rfl rfl) trivial rfl, rfl, hfam ⟨⟨_, rfl, rfl⟩, rfl, rfl⟩⟩
  obtain ⟨⟨m, hm, hload, hf⟩, m', hm', hload', hf'⟩ := hruns
  obtain ⟨hL, hA⟩ := pool_conserved (κ := Nat) (F := Rat)
  exact ⟨⟨m, hm, hload, (hL m hm).1, (hL m hm).2.2 _ (by decide) hf⟩,
    m', hm', hload', (hA m' hm').1, (hA m' hm').2.2 _ (by decide) hf'⟩

/-- A key whose count was dropped from the tracker is stored, but the store that offers it again does not
protect it: it is evicted to make room for the other key of the same call. -/
theorem prepareStore_evicts_own_key : ∃ m m' : CPUOffloadingManager Nat (LRUCachePolicy Nat), m.Reachable ∧
      m.prepareStore [0, 1] = .ok (some ⟨[1], [0], [0]⟩, m') ∧
      CachePolicy.get m.policy 0 = some ⟨0, 0⟩ ∧ CachePolicy.get m'.policy 0 = none := by
  have hnd : ∀ k : Nat, [k].Nodup := nodup_singleton
  exact ⟨_, _, .call (c := .prepareStore [1]) (.call (c := .completeStore [0] true) (.call (c := .prepareStore [0])
    (.call (c := .prepareStore [0]) (.init 1 false 2 1) (hnd 0) rfl) (hnd 0) rfl) trivial rfl) (hnd 1) rfl,
    rfl, rfl, rfl⟩

end CPUOffloadingManager

end VllmCore.KvOffload
