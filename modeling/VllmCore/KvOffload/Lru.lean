import VllmCore.KvOffload.Policy

/-! # The LRU policy

`LRUCachePolicy` keeps the idle keys in a list of their own, oldest first. `Sound` says that this list
is exactly the keys with reference count `0`. -/

namespace VllmCore.KvOffload
open Except List Dict
variable {κ : Type} [DecidableEq κ]

structure LRUCachePolicy (κ : Type) where
  cacheCapacity : Nat
  evictableChunks : Dict κ Unit
  chunks : Dict κ ChunkStatus

namespace LRUCachePolicy
variable {p q : LRUCachePolicy κ} {c c' : ChunkStatus} {k : κ} {kept keys : List κ}

def init (cacheCapacity : Nat) : LRUCachePolicy κ := ⟨cacheCapacity, .empty, .empty⟩

def insert (p : LRUCachePolicy κ) (key : κ) (chunk : ChunkStatus) : LRUCachePolicy κ :=
  { p with
    chunks := p.chunks.set key chunk
    evictableChunks := if chunk.refCnt = 0 then p.evictableChunks.set key () else p.evictableChunks }

def remove (p : LRUCachePolicy κ) (key : κ) : Except Err (LRUCachePolicy κ) :=
  if p.chunks.contains key then
    .ok { p with chunks := p.chunks.erase key, evictableChunks := p.evictableChunks.erase key }
  else .error .keyError

/-- A busy chunk reaches the end of `evictableChunks` when its last user is done. -/
def touchOne (p : LRUCachePolicy κ) (key : κ) : LRUCachePolicy κ :=
  if p.evictableChunks.contains key then { p with evictableChunks := p.evictableChunks.moveToEnd key } else p

def touch (p : LRUCachePolicy κ) (keys : List κ) : LRUCachePolicy κ := keys.reverse.foldl touchOne p

def clear (p : LRUCachePolicy κ) : LRUCachePolicy κ := { p with evictableChunks := .empty, chunks := .empty }

def candidates (p : LRUCachePolicy κ) (n : Nat) (kept : List κ) :
    List κ → List (κ × ChunkStatus) → Except Err (List (κ × ChunkStatus))
  | [], found => .ok found
  | key :: rest, found =>
    if key ∈ kept then p.candidates n kept rest found
    else match p.chunks.get? key with
      | none => .error .keyError
      | some chunk => do
        ensure (chunk.refCnt = 0) (.assertionError "chunk.ref_cnt == 0")
        let found := found ++ [(key, chunk)]
        if found.length = n then pure found else p.candidates n kept rest found

def evict (p : LRUCachePolicy κ) (n : Nat) (kept : List κ) :
    Except Err (Option (List (κ × ChunkStatus)) × LRUCachePolicy κ) :=
  if n = 0 then .ok (some [], p)
  else do
    let found ← p.candidates n kept p.evictableChunks.keys []
    if found.length < n then pure (none, p)
    else
      pure (some found, { p with
        evictableChunks := p.evictableChunks.eraseAll (found.map Prod.fst)
        chunks := p.chunks.eraseAll (found.map Prod.fst) })

def markEvictable (p : LRUCachePolicy κ) (key : κ) : LRUCachePolicy κ :=
  { p with evictableChunks := p.evictableChunks.set key () }

def markNonEvictable (p : LRUCachePolicy κ) (key : κ) : Except Err (LRUCachePolicy κ) :=
  if p.evictableChunks.contains key then .ok { p with evictableChunks := p.evictableChunks.erase key }
  else .error .keyError

instance : CachePolicy κ (LRUCachePolicy κ) where
  init := init
  get p := p.chunks.get?
  write p key chunk := { p with chunks := p.chunks.set key chunk }
  insert := insert
  remove := remove
  touch := touch
  evict := evict
  clear := clear
  markEvictable := markEvictable
  markNonEvictable := markNonEvictable

/-! ### The list of idle keys -/

def Sound (p : LRUCachePolicy κ) : Prop :=
  ∀ k, k ∈ p.evictableChunks.keys ↔ ∃ c, p.chunks.get? k = some c ∧ c.refCnt = 0

theorem Sound.congr (h : p.Sound) (hc : ∀ k, q.chunks.get? k = p.chunks.get? k)
    (he : ∀ k, k ∈ q.evictableChunks.keys ↔ k ∈ p.evictableChunks.keys) : q.Sound := by
  intro k
  rw [he, hc]
  exact h k

theorem touchOne_same (p : LRUCachePolicy κ) (key : κ) : (p.touchOne key).chunks = p.chunks ∧
      ∀ k, k ∈ (p.touchOne key).evictableChunks.keys ↔ k ∈ p.evictableChunks.keys := by
  unfold touchOne
  split
  · exact ⟨rfl, fun k => mem_keys_moveToEnd⟩
  · exact ⟨rfl, fun k => Iff.rfl⟩

theorem touch_same (p : LRUCachePolicy κ) (keys : List κ) : (p.touch keys).chunks = p.chunks ∧
      ∀ k, k ∈ (p.touch keys).evictableChunks.keys ↔ k ∈ p.evictableChunks.keys := by
  unfold touch
  induction keys.reverse generalizing p with
  | nil => exact ⟨rfl, fun k => Iff.rfl⟩
  | cons key l ih =>
    obtain ⟨hc, he⟩ := ih (p.touchOne key)
    obtain ⟨hc', he'⟩ := p.touchOne_same key
    exact ⟨hc.trans hc', fun k => (he k).trans (he' k)⟩

/-! ### Eviction -/

def idle (p : LRUCachePolicy κ) (kept : List κ) (keys : List κ) : List (κ × ChunkStatus) :=
  keys.filterMap fun k => if k ∈ kept then none else (p.chunks.get? k).map (k, ·)

theorem idle_cons (p : LRUCachePolicy κ) (kept : List κ) (keys : List κ) (hk : k ∉ kept)
    (hc : p.chunks.get? k = some c) :
    p.idle kept (k :: keys) = (k, c) :: p.idle kept keys := by
  rw [idle, filterMap_cons_some (b := (k, c)) (by rw [if_neg hk, hc]; rfl)]
  rfl

theorem idle_cons_of_mem (p : LRUCachePolicy κ) (keys : List κ) (hk : k ∈ kept) :
    p.idle kept (k :: keys) = p.idle kept keys := by
  rw [idle, filterMap_cons_none (by rw [if_pos hk])]
  rfl

theorem candidates_eq {n : Nat} {found : List (κ × ChunkStatus)}
    (hidle : ∀ k ∈ keys, ∃ c, p.chunks.get? k = some c ∧ c.refCnt = 0) (hn : found.length < n) :
    p.candidates n kept keys found = .ok (found ++ (p.idle kept keys).take (n - found.length)) := by
  induction keys generalizing found with
  | nil => simp [candidates, idle]
  | cons k keys ih =>
    have hrest : ∀ k ∈ keys, ∃ c, p.chunks.get? k = some c ∧ c.refCnt = 0 :=
      fun k hk => hidle k (mem_cons_of_mem _ hk)
    rw [candidates]
    split
    · next hk => rw [ih hrest hn, p.idle_cons_of_mem keys hk]
    · next hk =>
      obtain ⟨c, hc, h0⟩ := hidle k (mem_cons_self ..)
      have htake : (p.idle kept (k :: keys)).take (n - found.length) =
          (k, c) :: (p.idle kept keys).take (n - (found ++ [(k, c)]).length) := by
        rw [p.idle_cons kept keys hk hc, length_append, length_singleton,
          show n - found.length = (n - (found.length + 1)) + 1 by omega, take_succ_cons]
      rw [htake]
      simp only [hc, ensure_pos h0, ok_bind]
      split
      · next hlen => simp [hlen, pure, Except.pure]
      · next hlen =>
        rw [ih hrest (by simp at hlen ⊢; omega), append_assoc]
        rfl

theorem mem_idle (h : p.Sound) {e : κ × ChunkStatus} :
    e ∈ p.idle kept p.evictableChunks.keys ↔ e ∈ p.chunks.entries.filter (Evictable kept) := by
  obtain ⟨k, c⟩ := e
  rw [mem_filter, mem_entries, idle, mem_filterMap]
  constructor
  · rintro ⟨a, ha, hac⟩
    split at hac
    · cases hac
    · next hk =>
      rw [Option.map_eq_some_iff] at hac
      obtain ⟨w, hw, heq⟩ := hac
      cases heq
      obtain ⟨w', hw', h0⟩ := (h k).1 ha
      rw [hw] at hw'
      cases hw'
      exact ⟨hw, by simp [Evictable, h0, hk]⟩
  · rintro ⟨hc, hev⟩
    obtain ⟨h0, hk⟩ := of_decide_eq_true hev
    exact ⟨k, (h k).2 ⟨c, hc, h0⟩, by rw [if_neg hk, hc]; rfl⟩

theorem nodup_idle (p : LRUCachePolicy κ) (kept : List κ) (h : keys.Nodup) :
    ((p.idle kept keys).map Prod.fst).Nodup := by
  have hsub : ((p.idle kept keys).map Prod.fst).Sublist keys := by
    induction keys with
    | nil => simp [idle]
    | cons k keys ih =>
      have ih := ih h.of_cons
      by_cases hk : k ∈ kept
      · rw [p.idle_cons_of_mem keys hk]
        exact ih.cons k
      · cases hc : p.chunks.get? k with
        | some c =>
          rw [p.idle_cons kept keys hk hc]
          exact ih.cons_cons k
        | none =>
          rw [idle, filterMap_cons_none (by rw [if_neg hk, hc]; rfl)]
          exact ih.cons k
  exact h.sublist hsub

section
variable (h : p.Sound)
include h

theorem idle_perm (kept : List κ) :
    (p.idle kept p.evictableChunks.keys).Perm (p.chunks.entries.filter (Evictable kept)) :=
  (perm_ext_iff_of_nodup (p.nodup_idle kept p.evictableChunks.nodup).of_map
    (p.chunks.nodup_entries.filter _)).2 fun _ => mem_idle h

theorem evict_eq (n : Nat) (kept : List κ) : p.evict n kept = let found := (p.idle kept p.evictableChunks.keys).take n
      if n ≤ p.chunks.entries.countP (Evictable kept) then
        .ok (some found, { p with
          evictableChunks := p.evictableChunks.eraseAll (found.map Prod.fst)
          chunks := p.chunks.eraseAll (found.map Prod.fst) })
      else .ok (none, p) := by
  have hlen : (p.idle kept p.evictableChunks.keys).length = p.chunks.entries.countP (Evictable kept) := by
    rw [(idle_perm h kept).length_eq, countP_eq_length_filter]
  unfold evict
  split
  · next hn => subst hn; simp [Dict.eraseAll]
  · next hn =>
    rw [candidates_eq (fun k hk => (h k).1 hk) (by simpa using Nat.pos_of_ne_zero hn)]
    simp only [ok_bind, length_nil, Nat.sub_zero, nil_append, length_take, hlen]
    split
    · next hlt => rw [if_neg (by omega)]; rfl
    · next hlt => rw [if_pos (by omega)]; rfl

theorem Sound.eraseAll (ks : List κ) :
    Sound { p with evictableChunks := p.evictableChunks.eraseAll ks, chunks := p.chunks.eraseAll ks } := by
  intro k
  rw [Dict.mem_keys, get?_eraseAll, get?_eraseAll]
  by_cases hk : k ∈ ks
  · simp [hk]
  · rw [if_neg hk, if_neg hk, ← Dict.mem_keys]
    exact h k

theorem evict_lawful (n : Nat) (kept : List κ) : if n ≤ p.chunks.entries.countP (Evictable kept) then
      ∃ victims q, p.evict n kept = .ok (some victims, q) ∧ victims.length = n ∧
        (∀ e ∈ victims, Evictable kept e) ∧ q.Sound ∧ p.chunks.entries.Perm (victims ++ q.chunks.entries)
    else p.evict n kept = .ok (none, p) := by
  rw [evict_eq h]
  dsimp only
  have hperm := idle_perm h kept
  split
  · next hn =>
    refine ⟨_, _, rfl, ?_, ?_, h.eraseAll _, ?_⟩
    · rw [length_take, hperm.length_eq, ← countP_eq_length_filter]
      omega
    · intro e he
      have := (mem_idle h).1 (mem_of_mem_take he)
      exact (mem_filter.1 this).2
    · set found := (p.idle kept p.evictableChunks.keys).take n with hfound
      -- the victims are entries in another order: pick them out in the order of the entries
      have hsub : ∀ e ∈ found, e ∈ p.chunks.entries :=
        fun e he => (mem_filter.1 ((mem_idle h).1 (mem_of_mem_take he))).1
      have hnd : (found.map Prod.fst).Nodup :=
        (p.nodup_idle kept p.evictableChunks.nodup).sublist ((take_sublist n _).map _)
      refine (perm_ext_iff_of_nodup p.chunks.nodup_entries ?_).2 fun e => ?_
      · rw [entries_eraseAll]
        refine Nodup.append hnd.of_map (p.chunks.nodup_entries.filter _) ?_
        intro e he hm
        exact of_decide_eq_true (mem_filter.1 hm).2 (mem_map_of_mem he)
      · rw [mem_append, entries_eraseAll, mem_filter]
        constructor
        · intro he
          by_cases hk : e.1 ∈ found.map Prod.fst
          · obtain ⟨e', he', hek⟩ := mem_map.1 hk
            exact Or.inl ((inj_on_of_nodup_map p.chunks.nodup (hsub e' he') he hek) ▸ he')
          · exact Or.inr ⟨he, by simpa using hk⟩
        · rintro (he | ⟨he, -⟩)
          · exact hsub e he
          · exact he
  · rfl

/-! ### The laws -/

theorem sound_write (hk : p.chunks.get? k = some c) (h0 : c.refCnt = 0 ↔ c'.refCnt = 0) :
    Sound { p with chunks := p.chunks.set k c' } := by
  intro a
  simp only [get?_set]
  by_cases ha : a = k
  · subst ha
    rw [h a]
    simp [hk, h0]
  · simp only [ha, if_false]
    exact h a

theorem lawful_pinned (hk : p.chunks.get? k = some c) (h0 : c.refCnt = 0) (h1 : c'.refCnt ≠ 0) :
    ∃ q, p.markNonEvictable k = .ok q ∧ Sound { q with chunks := q.chunks.set k c' } ∧ q.chunks = p.chunks := by
  have hmem : p.evictableChunks.contains k = true := contains_iff.2 ((h k).2 ⟨c, hk, h0⟩)
  refine ⟨_, if_pos hmem, ?_, rfl⟩
  intro a
  rw [Dict.mem_keys, get?_erase, get?_set]
  by_cases ha : a = k
  · simp [ha, h1]
  · rw [if_neg ha, if_neg ha, ← Dict.mem_keys]
    exact h a

theorem lawful_idle (h0 : c'.refCnt = 0) : Sound (markEvictable { p with chunks := p.chunks.set k c' } k) := by
  intro a
  rw [markEvictable, Dict.mem_keys, get?_set, get?_set]
  by_cases ha : a = k
  · simp [ha, h0]
  · rw [if_neg ha, if_neg ha, ← Dict.mem_keys]
    exact h a

theorem lawful_insert (hk : p.chunks.get? k = none) (h1 : c.refCnt ≠ 0) : (p.insert k c).Sound := by
  intro a
  rw [insert, if_neg h1, get?_set]
  by_cases ha : a = k
  · subst ha
    rw [h a]
    simp [hk, h1]
  · rw [if_neg ha]
    exact h a

theorem lawful_remove (hk : p.chunks.get? k = some c) :
    ∃ q, p.remove k = .ok q ∧ q.Sound ∧ q.chunks = p.chunks.erase k := by
  refine ⟨_, if_pos (by simp [Dict.contains, hk]), ?_, rfl⟩
  intro a
  rw [Dict.mem_keys, get?_erase, get?_erase]
  by_cases ha : a = k
  · simp [ha]
  · rw [if_neg ha, if_neg ha, ← Dict.mem_keys]
    exact h a

end

theorem get?_of_perm {rest : List (κ × ChunkStatus)} (h : p.chunks.entries.Perm ((k, c) :: rest)) :
    p.chunks.get? k = some c :=
  mem_entries.1 (h.mem_iff.2 (mem_cons_self ..))

instance : LawfulCachePolicy κ (LRUCachePolicy κ) where
  Sound := Sound
  chunks p := p.chunks.entries
  nodup {p} _ := p.chunks.nodup
  get_eq_some _ := mem_entries.symm
  sound_init _ := by intro k; simp [CachePolicy.init, init, Dict.mem_keys]
  chunks_init _ := rfl
  sound_clear _ := by intro k; simp [CachePolicy.clear, clear, Dict.mem_keys]
  chunks_clear _ := rfl
  write_busy h hp hc hc' := ⟨sound_write h (get?_of_perm hp) (by simp [hc, hc']), entries_set_perm_cons hp⟩
  write_pinned {p k c c' rest} h hp hc hc' := by
    obtain ⟨q, hq, hs, hqc⟩ := lawful_pinned h (get?_of_perm hp) hc hc'
    exact ⟨q, hq, hs, entries_set_perm_cons (hqc ▸ hp)⟩
  write_idle h hp _ hc' := ⟨lawful_idle h hc', entries_set_perm_cons hp⟩
  insert_new h hk hc :=
    have hk' := get?_eq_none_iff.2 hk
    ⟨lawful_insert h hk' hc, entries_set_perm_of_none hk' _⟩
  remove_held {p k c rest} h hp := by
    obtain ⟨q, hq, hs, hqc⟩ := lawful_remove h (get?_of_perm hp)
    refine ⟨q, hq, hs, ?_⟩
    rw [hqc]
    exact ((entries_erase_perm (get?_of_perm hp)).symm.trans hp).cons_inv
  touch_perm {p} ks h := by
    obtain ⟨hc, he⟩ := p.touch_same ks
    exact ⟨h.congr (fun k => by rw [show CachePolicy.touch p ks = p.touch ks from rfl, hc]) he,
      Perm.of_eq (congrArg Dict.entries hc)⟩
  evict_spec n kept h := evict_lawful h n kept

end LRUCachePolicy

end VllmCore.KvOffload
