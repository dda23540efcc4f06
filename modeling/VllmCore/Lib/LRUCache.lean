import VllmCore.Lib.OrderedDict

/-! # Caches that evict the least recently used key

The entries of a cache stand from the least to the most recently used one. `Recent R` says that the keys of `R` are the
most recently used ones; as long as they fit together, storing one of them evicts none of them. -/

universe u v

namespace Dict
open List
variable {α : Type u} {β : Type v} {v : Option β}

/-- The keys with the sizes of their values. -/
def shadow (d : Dict α β) (w : β → Nat) : List (α × Nat) := d.entries.map fun e => (e.1, w e.2)

variable [DecidableEq α]

/-- `__setitem__` of the library's LRU cache; `none` is its error "value too large". The laws are what is relied on
here: a new key comes last, after as many of the oldest entries went as the room for it asks for. -/
class SetItem (α : Type u) [DecidableEq α] where
  setItem {β : Type v} (d : Dict α β) (w : β → Nat) (maxsize : Nat) (k : α) (v : β) : Option (Dict α β)
  /-- how many entries go, given the keys and sizes in the cache and the size of the value -/
  evictions (maxsize : Nat) (sizes : List (α × Nat)) (size : Nat) : Nat
  setItem_large {β : Type v} {d : Dict α β} {w : β → Nat} {maxsize : Nat} {k : α} {v : β} (h : maxsize < w v) :
    setItem d w maxsize k v = none
  setItem_new {β : Type v} {d : Dict α β} {w : β → Nat} {maxsize : Nat} {k : α} {v : β} (h : w v ≤ maxsize)
    (hk : d.get? k = none) : ∃ d', setItem d w maxsize k v = some d' ∧
      d'.entries = d.entries.drop (evictions maxsize (d.shadow w) (w v)) ++ [(k, v)]
  evictions_le {maxsize size n : Nat} {sizes : List (α × Nat)}
    (h : ((sizes.drop n).map Prod.snd).sum + size ≤ maxsize) :
    evictions maxsize sizes size ≤ n

section
variable [SetItem.{u, v} α] {d : Dict α β} {w : β → Nat} {maxsize : Nat} {k : α}

/-- `put_if_fits`. -/
def putIfFits (d : Dict α β) (w : β → Nat) (maxsize : Nat) (k : α) (v : β) : Dict α β :=
  (SetItem.setItem d w maxsize k v).getD d

def getOrPut (d : Dict α β) (w : β → Nat) (maxsize : Nat) (k : α) (v : Option β) : Dict α β :=
  match d.get? k, v with
  | some _, _ => d.moveToEnd k
  | none, some v => d.putIfFits w maxsize k v
  | none, none => d

theorem getOrPut_of_some {x : β} (h : d.get? k = some x) : d.getOrPut w maxsize k v = d.moveToEnd k := by
  unfold getOrPut
  rw [h]

theorem getOrPut_of_none (h : d.get? k = none) : d.getOrPut w maxsize k v = v.elim d (d.putIfFits w maxsize k) := by
  unfold getOrPut
  rw [h]
  cases v <;> rfl

theorem putIfFits_large {v : β} (h : maxsize < w v) : d.putIfFits w maxsize k v = d := by
  rw [putIfFits, SetItem.setItem_large h]
  rfl

theorem putIfFits_of_none {v : β} (h : d.get? k = none) (hfit : w v ≤ maxsize) : (d.putIfFits w maxsize k v).entries =
    d.entries.drop (SetItem.evictions maxsize (d.shadow w) (w v)) ++ [(k, v)] := by
  obtain ⟨d', hset, hentries⟩ := SetItem.setItem_new hfit h
  rw [putIfFits, hset]
  exact hentries

end

variable {d : Dict α β} {w : β → Nat} {maxsize : Nat} {k : α} {R : List α}

theorem fst_ne_of_get?_eq_none (h : d.get? k = none) : ∀ e ∈ d.entries, e.1 ≠ k := by
  intro e he hek
  refine get?_eq_none_iff.1 h ?_
  rw [← hek]
  exact mem_map_of_mem he

theorem filter_of_get?_eq_none (h : d.get? k = none) :
    (d.entries.filter fun e => e.1 ≠ k) = d.entries ∧ (d.entries.filter fun e => e.1 = k) = [] :=
  ⟨filter_eq_self.2 fun e he => decide_eq_true (fst_ne_of_get?_eq_none h e he),
    filter_eq_nil_iff.2 fun e he => by simpa using fst_ne_of_get?_eq_none h e he⟩

theorem entries_moveToEnd_eq (d : Dict α β) (k : α) :
    (d.moveToEnd k).entries = (d.entries.filter fun e => e.1 ≠ k) ++ d.entries.filter fun e => e.1 = k := by
  cases h : d.get? k with
  | none =>
    rw [(filter_of_get?_eq_none h).1, (filter_of_get?_eq_none h).2, append_nil, moveToEnd, h]
  | some v =>
    have hfilter : (d.entries.filter fun e => e.1 = k) = [(k, v)] := by
      refine perm_singleton.1 ((perm_ext_iff_of_nodup (d.nodup_entries.filter _) (nodup_singleton _)).2 ?_)
      rintro ⟨a, b⟩
      rw [mem_filter, mem_entries, mem_singleton, Prod.mk.injEq, decide_eq_true_iff]
      constructor
      · rintro ⟨hb, rfl⟩
        exact ⟨rfl, Option.some.inj (hb.symm.trans h)⟩
      · rintro ⟨rfl, rfl⟩
        exact ⟨h, rfl⟩
    rw [hfilter, moveToEnd, h]
    exact entries_set_of_none (by simp) v

/-- Pop the oldest entries until the rest and the new value fit. -/
def surplus (room : Nat) : List (α × Nat) → Nat
  | [] => 0
  | e :: l => if ((e :: l).map Prod.snd).sum ≤ room then 0 else surplus room l + 1

omit [DecidableEq α] in
theorem surplus_le {room n : Nat} {l : List (α × Nat)} (h : ((l.drop n).map Prod.snd).sum ≤ room) :
    surplus room l ≤ n := by
  induction l generalizing n with
  | nil => exact Nat.zero_le n
  | cons e l ih =>
    unfold surplus
    split
    · exact Nat.zero_le n
    · next hlt =>
      cases n with
      | zero => exact absurd h hlt
      | succ n => exact Nat.succ_le_succ (ih h)

/-- Such a cache, as the library has it: a value that does not grow needs no room. -/
instance cachetools : SetItem.{u, v} α where
  setItem d w maxsize k v :=
    if maxsize < w v then none
    else some (((if (d.get? k).any fun old => w v ≤ w old then d
      else d.dropFirst (surplus (maxsize - w v) (d.shadow w))).set k v).moveToEnd k)
  evictions maxsize sizes size := surplus (maxsize - size) sizes
  setItem_large h := if_pos h
  setItem_new {β d w maxsize k v} h hk := by
    have hnone : (d.dropFirst (surplus (maxsize - w v) (d.shadow w))).get? k = none :=
      get?_eq_none_iff.2 fun hmem => get?_eq_none_iff.1 hk (((drop_suffix ..).sublist.map _).subset hmem)
    refine ⟨_, if_neg (Nat.not_lt.2 h), ?_⟩
    rw [hk, Option.any_none, if_neg Bool.false_ne_true, entries_moveToEnd_eq, entries_set_of_none hnone,
      filter_append, filter_append, (filter_of_get?_eq_none hnone).1, (filter_of_get?_eq_none hnone).2]
    simp [dropFirst]
  evictions_le h := surplus_le (Nat.le_sub_of_add_le h)

/-! ### Recently used keys -/

/-- The keys of `R` that are cached are the most recently used ones. -/
def Recent (R : List α) (d : Dict α β) : Prop :=
  ∃ old new, d.entries = old ++ new ∧ (∀ e ∈ old, e.1 ∉ R) ∧ ∀ e ∈ new, e.1 ∈ R

theorem Recent.moveToEnd (h : Recent R d) (k : α) : Recent (k :: R) (d.moveToEnd k) := by
  obtain ⟨old, new, heq, hold, hnew⟩ := h
  refine ⟨old.filter fun e => e.1 ≠ k, (new.filter fun e => e.1 ≠ k) ++ d.entries.filter fun e => e.1 = k, ?_, ?_, ?_⟩
  · rw [entries_moveToEnd_eq, ← append_assoc, ← filter_append, ← heq]
  · intro e he
    obtain ⟨he, hk⟩ := mem_filter.1 he
    rw [mem_cons, not_or]
    exact ⟨of_decide_eq_true hk, hold e he⟩
  · intro e he
    rcases mem_append.1 he with he | he
    · exact mem_cons_of_mem _ (hnew e (mem_of_mem_filter he))
    · rw [of_decide_eq_true (mem_filter.1 he).2]
      exact mem_cons_self

omit [DecidableEq α] in
theorem Recent.congr {R' : List α} (h : Recent R d) (hR : ∀ k, k ∈ R ↔ k ∈ R') : Recent R' d := by
  obtain ⟨old, new, heq, hold, hnew⟩ := h
  exact ⟨old, new, heq, fun e he hmem => hold e he ((hR _).2 hmem), fun e he => (hR _).1 (hnew e he)⟩

theorem recent_touch (R : List α) (d : Dict α β) : Recent R (R.foldl Dict.moveToEnd d) := by
  have hloop : ∀ (R S : List α) (d : Dict α β), Recent S d → Recent (R ++ S) (R.foldl Dict.moveToEnd d) := by
    intro R
    induction R with
    | nil => exact fun S d h => h
    | cons k R ih =>
      intro S d h
      refine (ih (k :: S) _ (h.moveToEnd k)).congr fun x => ?_
      simp only [cons_append, mem_append, mem_cons]
      tauto
  simpa using hloop R [] d ⟨d.entries, [], (append_nil _).symm, nofun, nofun⟩

section Fits
variable {val : α → β}

/-- Every key is cached with the value it stands for, and none is larger than the cache. -/
def Caches (d : Dict α β) (w : β → Nat) (maxsize : Nat) (val : α → β) : Prop :=
  ∀ x y, d.get? x = some y → y = val x ∧ w y ≤ maxsize

/-- The keys of `R` that can be cached at all can be cached together. -/
def FitsAll (w : β → Nat) (maxsize : Nat) (val : α → β) (R : List α) : Prop :=
  ((R.dedup.filter fun x => w (val x) ≤ maxsize).map fun x => w (val x)).sum ≤ maxsize

theorem FitsAll.sum_le (h : FitsAll w maxsize val R) {l : List α} (hl : l.Nodup) (hR : l ⊆ R)
    (hw : ∀ x ∈ l, w (val x) ≤ maxsize) : (l.map fun x => w (val x)).sum ≤ maxsize := by
  obtain ⟨l', hperm, hsub⟩ := Nodup.subperm hl fun x hx =>
    mem_filter.2 ⟨mem_dedup.2 (hR hx), decide_eq_true (hw x hx)⟩
  rw [← (hperm.map _).sum_eq]
  exact ((hsub.map _).sum_le_sum fun _ _ => Nat.zero_le _).trans h

variable [SetItem.{u, v} α] (hfits : FitsAll w maxsize val R) (hd : d.Caches w maxsize val)
include hfits hd

theorem Recent.entries_putIfFits (h : Recent R d) (hk : k ∈ R) (hget : d.get? k = none) (hw : w (val k) ≤ maxsize) :
    ∃ old kept new, d.entries = old ++ new ∧ (∀ e ∈ old, e.1 ∉ R) ∧ (∀ e ∈ new, e.1 ∈ R) ∧ kept ⊆ old ∧
      (d.putIfFits w maxsize k (val k)).entries = kept ++ (new ++ [(k, val k)]) := by
  obtain ⟨old, new, heq, hold, hnew⟩ := h
  have hin : ∀ e ∈ new, e.2 = val e.1 ∧ w e.2 ≤ maxsize := fun e he =>
    hd e.1 e.2 (mem_entries.1 (heq ▸ mem_append_right _ he))
  have hnodup : (k :: new.map Prod.fst).Nodup := by
    refine nodup_cons.2 ⟨fun hmem => ?_, d.nodup.sublist (heq ▸ (sublist_append_right old new).map _)⟩
    obtain ⟨e, he, hek⟩ := mem_map.1 hmem
    exact fst_ne_of_get?_eq_none hget e (heq ▸ mem_append_right _ he) hek
  have hsum : w (val k) + (new.map fun x => w x.2).sum ≤ maxsize := by
    have hmap : new.map (fun x => w x.2) = (new.map Prod.fst).map fun x => w (val x) := by
      rw [map_map]
      exact map_congr_left fun e he => congrArg w (hin e he).1
    rw [hmap]
    refine hfits.sum_le hnodup (cons_subset.2 ⟨hk, fun x hx => ?_⟩) fun x hx => ?_
    · obtain ⟨e, he, rfl⟩ := mem_map.1 hx
      exact hnew e he
    · rcases mem_cons.1 hx with rfl | hx
      · exact hw
      · obtain ⟨e, he, rfl⟩ := mem_map.1 hx
        exact (hin e he).1 ▸ (hin e he).2
  have hle : SetItem.evictions maxsize (d.shadow w) (w (val k)) ≤ old.length := by
    refine SetItem.evictions_le ?_
    rw [shadow, heq, map_append, drop_left' (length_map _), map_map, Nat.add_comm]
    exact hsum
  have hentries := putIfFits_of_none hget hw
  generalize SetItem.evictions maxsize (d.shadow w) (w (val k)) = n at hle hentries
  refine ⟨old, old.drop n, new, heq, hold, hnew, drop_subset .., ?_⟩
  rw [hentries, heq, drop_append_of_le_length hle, append_assoc]

theorem Recent.putIfFits (h : Recent R d) (hk : k ∈ R) (hget : d.get? k = none) (hw : w (val k) ≤ maxsize) :
    Recent R (d.putIfFits w maxsize k (val k)) ∧ (d.putIfFits w maxsize k (val k)).Caches w maxsize val ∧
      ∀ x ∈ R, (d.putIfFits w maxsize k (val k)).get? x = if x = k then some (val k) else d.get? x := by
  obtain ⟨old, kept, new, heq, hold, hnew, hkept, hent⟩ := h.entries_putIfFits hfits hd hk hget hw
  refine ⟨⟨kept, new ++ [(k, val k)], hent, fun e he => hold e (hkept he), fun e he => ?_⟩, fun x y hy => ?_,
    fun x hx => ?_⟩
  · rcases mem_append.1 he with he | he
    · exact hnew e he
    · rwa [mem_singleton.1 he]
  · rw [← mem_entries, hent] at hy
    rcases mem_append.1 hy with hy | hy
    · exact hd x y (mem_entries.1 (heq ▸ mem_append_left _ (hkept hy)))
    rcases mem_append.1 hy with hy | hy
    · exact hd x y (mem_entries.1 (heq ▸ mem_append_right _ hy))
    · cases mem_singleton.1 hy
      exact ⟨rfl, hw⟩
  -- a key of `R` stands in the recent part, before and after
  · have hnew_iff : ∀ y, (x, y) ∈ new ↔ d.get? x = some y := by
      intro y
      rw [← mem_entries, heq, mem_append]
      exact (or_iff_right fun hy => hold _ hy hx).symm
    ext y
    rw [← mem_entries, hent, mem_append, mem_append, mem_singleton, hnew_iff, Prod.mk.injEq,
      or_iff_right fun hy => hold _ (hkept hy) hx]
    split
    · next hxk => simp [hxk, hget, eq_comm]
    · next hxk => simp [hxk]

/-- A lookup of a recent key finds or stores it, and keeps all of `R`. -/
theorem Recent.getOrPut (h : Recent R d) (hk : k ∈ R) (hv : ∀ y ∈ v, y = val k) :
    Recent R (d.getOrPut w maxsize k v) ∧ (d.getOrPut w maxsize k v).Caches w maxsize val ∧
      ∀ x ∈ R, (d.getOrPut w maxsize k v).get? x =
        if x = k then (d.get? k).or (v.filter (w · ≤ maxsize)) else d.get? x := by
  have hsame : ∀ x, d.get? x = if x = k then d.get? k else d.get? x := by
    intro x
    split
    · next hx => rw [hx]
    · rfl
  rcases hget : d.get? k with _ | y
  · rw [getOrPut_of_none hget]
    rw [hget] at hsame
    rcases v with _ | v
    · exact ⟨h, hd, fun x _ => hsame x⟩
    obtain rfl := hv v rfl
    rw [Option.elim_some, Option.none_or, Option.filter_some]
    by_cases hw : w (val k) ≤ maxsize
    · rw [if_pos (decide_eq_true hw)]
      exact h.putIfFits hfits hd hk hget hw
    · rw [putIfFits_large (Nat.lt_of_not_le hw), if_neg (by simpa using hw)]
      exact ⟨h, hd, fun x _ => hsame x⟩
  · rw [getOrPut_of_some hget, Option.some_or, ← hget]
    refine ⟨(h.moveToEnd k).congr fun x => ?_, fun x z hz => hd x z ((get?_moveToEnd ..).symm.trans hz),
      fun x _ => (get?_moveToEnd ..).trans (hsame x)⟩
    rw [mem_cons, or_iff_right_of_imp]
    rintro rfl
    exact hk

end Fits

/-! ### Caches that differ in their values only -/

section Shadow
variable {γ : Type v} {d' : Dict α γ} {w' : γ → Nat}

variable (h : d.shadow w = d'.shadow w')
include h

omit [DecidableEq α] in
theorem keys_eq_of_shadow : d.keys = d'.keys := by
  have hfst := congrArg (List.map Prod.fst) h
  simpa [shadow, keys, map_map, Function.comp_def] using hfst

theorem shadow_moveToEnd (k : α) : (d.moveToEnd k).shadow w = (d'.moveToEnd k).shadow w' := by
  have hmap : ∀ {δ : Type v} (x : Dict α δ) (u : δ → Nat), (x.moveToEnd k).shadow u =
      ((x.shadow u).filter fun e => e.1 ≠ k) ++ (x.shadow u).filter fun e => e.1 = k := by
    intro δ x u
    unfold shadow
    rw [entries_moveToEnd_eq, map_append, filter_map, filter_map]
    rfl
  rw [hmap, hmap, h]

/-- Caches with the same keys and weights stay so when the same key is looked up in both. -/
theorem shadow_getOrPut [SetItem.{u, v} α] {v' : Option γ} (k : α) (hv : d.get? k = none → v.map w = v'.map w') :
    (d.getOrPut w maxsize k v).shadow w = (d'.getOrPut w' maxsize k v').shadow w' := by
  have hkeys := keys_eq_of_shadow h
  rcases hd : d.get? k with _ | x
  · have hd' : d'.get? k = none := get?_eq_none_iff.2 (hkeys ▸ get?_eq_none_iff.1 hd)
    rw [getOrPut_of_none hd, getOrPut_of_none hd']
    have hv := hv hd
    rcases v with _ | x <;> rcases v' with _ | y
    · exact h
    · cases hv
    · cases hv
    have hw : w x = w' y := Option.some.inj hv
    show (d.putIfFits w maxsize k x).shadow w = (d'.putIfFits w' maxsize k y).shadow w'
    by_cases hfit : w x ≤ maxsize
    · have hput : ∀ {δ : Type v} {c : Dict α δ} {u : δ → Nat} {z : δ}, c.get? k = none → u z ≤ maxsize →
          (c.putIfFits u maxsize k z).shadow u =
            (c.shadow u).drop (SetItem.evictions.{u, v} maxsize (c.shadow u) (u z)) ++ [(k, u z)] := by
        intro δ c u z hnone hle
        rw [shadow, putIfFits_of_none hnone hle, map_append, map_drop]
        rfl
      rw [hput hd hfit, hput hd' (hw ▸ hfit), h, hw]
    · rw [putIfFits_large (Nat.lt_of_not_le hfit), putIfFits_large (hw ▸ Nat.lt_of_not_le hfit)]
      exact h
  · obtain ⟨y, hy⟩ := Option.isSome_iff_exists.1 (mem_keys.1 (hkeys ▸ mem_keys.2 (Option.isSome_of_eq_some hd)))
    rw [getOrPut_of_some hd, getOrPut_of_some hy]
    exact shadow_moveToEnd h k

end Shadow

end Dict
