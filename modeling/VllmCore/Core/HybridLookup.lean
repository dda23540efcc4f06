import VllmCore.Core.HitSpec
import VllmCore.Core.Coordinator

/-! # The fixed-point search of the hybrid coordinator

`HybridKVCacheCoordinator.find_longest_cache_hit` asks the spec groups in turn, each for the greatest hit up
to what the others left, until a round changes nothing. No round skips a length at which all groups have a
hit, and a round that changes nothing has confirmed its length for every group; full attention is asked only
once, because a hit of it stays one when it is cut. -/

namespace VllmCore
open Except List
variable {η : Type} {specs : List KVCacheSpec}

namespace Coordinator
variable {groups : List SpecGroup} {i n' : Nat}

/-! ### The spec groups -/

/-- What grouping the pairs `(group id, spec)` by spec gives. -/
structure Split (pairs : List (Nat × KVCacheSpec)) (groups : List SpecGroup) : Prop where
  ids : ∀ g ∈ groups, g.groupIds ≠ [] ∧ ∀ i ∈ g.groupIds, (i, g.spec) ∈ pairs
  cover : ∀ i s, (i, s) ∈ pairs → s.prefixCacheable = true → ∃ g ∈ groups, g.spec = s ∧ i ∈ g.groupIds
  nodup : (groups.map SpecGroup.spec).Nodup

theorem addToSpecGroups_cases (groups : List SpecGroup) (i : Nat) (s : KVCacheSpec) (e : Bool) :
    (∃ l g r, groups = l ++ g :: r ∧ g.spec = s ∧ addToSpecGroups groups i s e =
      l ++ { g with groupIds := g.groupIds ++ [i], useEagle := g.useEagle || e } :: r) ∨
    s ∉ groups.map SpecGroup.spec ∧ addToSpecGroups groups i s e = groups ++ [⟨s, [i], e⟩] := by
  induction groups with
  | nil => exact .inr ⟨not_mem_nil, rfl⟩
  | cons g₀ gs ih =>
    unfold addToSpecGroups
    split
    · next hs => exact .inl ⟨[], g₀, gs, rfl, hs, rfl⟩
    · next hs =>
      rcases ih with ⟨l, g, r, rfl, hg, h⟩ | ⟨hout, h⟩
      · exact .inl ⟨g₀ :: l, g, r, rfl, hg, by rw [h]; rfl⟩
      · exact .inr ⟨by rw [map_cons, mem_cons, not_or]; exact ⟨Ne.symm hs, hout⟩, by rw [h]; rfl⟩

theorem Split.add {pairs : List (Nat × KVCacheSpec)} (h : Split pairs groups) (i : Nat) (s : KVCacheSpec) (e : Bool) :
    Split (pairs ++ [(i, s)]) (addToSpecGroups groups i s e) := by
  have hold : ∀ g ∈ groups, g.groupIds ≠ [] ∧ ∀ j ∈ g.groupIds, (j, g.spec) ∈ pairs ++ [(i, s)] :=
    fun g hg => ⟨(h.ids g hg).1, fun j hj => mem_append_left _ ((h.ids g hg).2 j hj)⟩
  have hlast : (i, s) ∈ pairs ++ [(i, s)] := mem_append_right _ (mem_singleton_self _)
  rcases addToSpecGroups_cases groups i s e with ⟨l, g₀, r, rfl, rfl, h'⟩ | ⟨hnew, h'⟩
  · rw [h']
    refine ⟨?_, fun j t hj ht => ?_, by simpa using h.nodup⟩
    · simp only [forall_mem_append, forall_mem_cons] at hold ⊢
      obtain ⟨hl, ⟨-, h₀⟩, hr⟩ := hold
      exact ⟨hl, ⟨by simp, h₀, hlast, forall_mem_nil _⟩, hr⟩
    · rcases mem_append.1 hj with hj | hj
      · obtain ⟨g, hg, hgs, hjg⟩ := h.cover j t hj ht
        simp only [mem_append, mem_cons] at hg ⊢
        rcases hg with hg | rfl | hg
        · exact ⟨g, .inl hg, hgs, hjg⟩
        · exact ⟨_, .inr (.inl rfl), hgs, mem_append_left _ hjg⟩
        · exact ⟨g, .inr (.inr hg), hgs, hjg⟩
      · cases mem_singleton.1 hj
        exact ⟨_, mem_append_right _ (mem_cons_self ..), rfl, mem_append_right _ (mem_singleton_self _)⟩
  · rw [h']
    refine ⟨?_, fun j t hj ht => ?_, ?_⟩
    · rw [forall_mem_append, forall_mem_singleton]
      exact ⟨hold, cons_ne_nil _ _, fun j hj => mem_singleton.1 hj ▸ hlast⟩
    · rcases mem_append.1 hj with hj | hj
      · obtain ⟨g, hg, hrest⟩ := h.cover j t hj ht
        exact ⟨g, mem_append_left _ hg, hrest⟩
      · cases mem_singleton.1 hj
        exact ⟨_, mem_append_right _ (mem_singleton_self _), rfl, mem_singleton_self _⟩
    · rw [map_append]
      exact h.nodup.append (nodup_singleton s) (by simpa using hnew)

theorem split_foldl (pairs : List (Nat × KVCacheSpec)) (eagle : List Nat) : Split pairs (pairs.foldl (fun gs is =>
      if is.2.prefixCacheable then addToSpecGroups gs is.1 is.2 (eagle.contains is.1) else gs) []) := by
  induction pairs using List.reverseRecOn with
  | nil => exact ⟨fun g hg => (not_mem_nil hg).elim, fun i s h => (not_mem_nil h).elim, nodup_nil⟩
  | append_singleton pairs is ih =>
    rw [foldl_append, foldl_cons, foldl_nil]
    split
    · exact ih.add is.1 is.2 _
    · next hs =>
      refine ⟨fun g hg => ⟨(ih.ids g hg).1, fun i hi => mem_append_left _ ((ih.ids g hg).2 i hi)⟩, ?_, ih.nodup⟩
      intro i s hmem hc
      rcases mem_append.1 hmem with hmem | hmem
      · exact ih.cover i s hmem hc
      · cases mem_singleton.1 hmem; exact absurd hc hs

theorem mem_zip_range {α : Type} {l : List α} {a : α} : (i, a) ∈ (List.range l.length).zip l ↔ l[i]? = some a := by
  rw [mem_iff_getElem?]
  constructor
  · rintro ⟨k, hk⟩
    rw [getElem?_zip_eq_some] at hk
    obtain ⟨h1, h2⟩ := hk
    obtain ⟨hlt, rfl⟩ := List.getElem?_eq_some_iff.1 h1
    rwa [getElem_range]
  · intro h
    obtain ⟨hlt, -⟩ := List.getElem?_eq_some_iff.1 h
    exact ⟨i, getElem?_zip_eq_some.2 ⟨getElem?_range hlt, h⟩⟩

/-- The spec groups of a coordinator: full attention first, each group id under its own spec. -/
structure SpecGroups (specs : List KVCacheSpec) (groups : List SpecGroup) : Prop where
  ids : ∀ g ∈ groups, g.groupIds ≠ [] ∧ ∀ i ∈ g.groupIds, specs[i]? = some g.spec
  cover : ∀ (i : Nat) s, specs[i]? = some s → s.prefixCacheable = true → ∃ g ∈ groups, g.spec = s ∧ i ∈ g.groupIds
  nodup : (groups.map SpecGroup.spec).Nodup
  sorted : ∃ full rest, groups = full ++ rest ∧ (∀ g ∈ full, g.spec.isFullAttention = true) ∧
    ∀ g ∈ rest, g.spec.isFullAttention = false

theorem specGroups_split (specs : List KVCacheSpec) (eagle : List Nat) :
    SpecGroups specs (splitKvCacheGroups specs eagle) := by
  have h := split_foldl ((List.range specs.length).zip specs) eagle
  unfold splitKvCacheGroups
  generalize ((List.range specs.length).zip specs).foldl _ [] = gs at h
  have hperm : (gs.filter (fun g => g.spec.isFullAttention) ++ gs.filter (fun g => !g.spec.isFullAttention)).Perm gs :=
    filter_append_perm _ gs
  refine ⟨fun g hg => ?_, fun i s hs hc => ?_, ?_, ⟨_, _, rfl, ?_, ?_⟩⟩
  · obtain ⟨h1, h2⟩ := h.ids g (hperm.mem_iff.1 hg)
    exact ⟨h1, fun i hi => mem_zip_range.1 (h2 i hi)⟩
  · obtain ⟨g, hg, hrest⟩ := h.cover i s (mem_zip_range.2 hs) hc
    exact ⟨g, hperm.mem_iff.2 hg, hrest⟩
  · exact (hperm.map _).nodup_iff.2 h.nodup
  · intro g hg; exact (mem_filter.1 hg).2
  · intro g hg; simpa using (mem_filter.1 hg).2

theorem SpecGroups.apart (h : SpecGroups specs groups) {g g' : SpecGroup} (hg : g ∈ groups) (hg' : g' ∈ groups)
    (hi : i ∈ g.groupIds) (hi' : i ∈ g'.groupIds) : g = g' := by
  have hs : g.spec = g'.spec :=
    Option.some.inj (((h.ids g hg).2 i hi).symm.trans ((h.ids g' hg').2 i hi'))
  exact inj_on_of_nodup_map h.nodup hg hg' hs

/-! ### One lookup -/

section Search
variable [DecidableEq η] {c : Coordinator η} {blockHashes : List η} {maxLength : Nat} {st st' : HitSearch}
  {g : SpecGroup} {n : Nat} {blocks : List (List BlockId)} {cfg : KVCacheConfig} {o : KVCacheOptions} {ids : List Nat}

/-- The lookups that the search is exact for: no EAGLE, whole blocks, full attention first. -/
structure Exact (c : Coordinator η) : Prop where
  align : 0 < c.cacheHitAlignmentTokens
  good : ∀ g ∈ c.attentionGroups, CacheHit.Searchable g.spec c.cacheHitAlignmentTokens ∧
    g.spec.blockSize ∣ c.cacheHitAlignmentTokens ∧ c.pool.hashBlockSize ∣ g.spec.blockSize ∧ g.groupIds ≠ [] ∧
    g.useEagle = false
  apart : ∀ g ∈ c.attentionGroups, ∀ g' ∈ c.attentionGroups, ∀ i ∈ g.groupIds, i ∈ g'.groupIds → g = g'
  first : ∃ g rest, c.attentionGroups = g :: rest ∧ g.spec.isFullAttention = true

def Hits (c : Coordinator η) (blockHashes : List η) (g : SpecGroup) (n : Nat) : Prop :=
  c.cacheHitAlignmentTokens ∣ n ∧ ∀ i ∈ g.groupIds, c.pool.HasHit g.spec blockHashes i n

structure OnRecord (c : Coordinator η) (blockHashes : List η) (st : HitSearch) (g : SpecGroup) (n : Nat) : Prop where
  hits : c.Hits blockHashes g n
  length : ∀ i ∈ g.groupIds, st.hitLengthByGroup i = n
  blocks : ∀ i ∈ g.groupIds, ∃ bs, st.hitBlocksByGroup i = some bs ∧ bs.length = n / g.spec.blockSize ∧
    CacheHit.GroupBlocks c.pool g.spec blockHashes i bs

/-- No common hit is above the candidate, and full attention on record covers it. -/
structure Search (c : Coordinator η) (blockHashes : List η) (maxLength : Nat) (st : HitSearch) : Prop where
  bound : ∀ n ≤ maxLength, (∀ g ∈ c.attentionGroups, c.Hits blockHashes g n) → n ≤ st.currHitLength
  recorded : ∀ g ∈ c.attentionGroups, g.spec.isFullAttention = true → ∀ i ∈ g.groupIds,
    (st.hitBlocksByGroup i).isSome = true → ∃ n, c.OnRecord blockHashes st g n ∧ st.currHitLength ≤ n

structure Asked (c : Coordinator η) (blockHashes : List η) (maxLength : Nat) (g : SpecGroup) (st st' : HitSearch) :
    Prop where
  search : c.Search blockHashes maxLength st'
  le : st'.currHitLength ≤ st.currHitLength
  record : ∃ n, c.OnRecord blockHashes st' g n ∧ st'.currHitLength ≤ n ∧
    (g.spec.isFullAttention = false → n = st'.currHitLength)
  others : ∀ g' ∈ c.attentionGroups, g' ≠ g → ∀ n, c.OnRecord blockHashes st g' n → c.OnRecord blockHashes st' g' n
  aligned : c.cacheHitAlignmentTokens ∣ st'.currHitLength ∨ st' = st

theorem lookup_zip (hlen : blocks.length = ids.length) (hi : i ∈ ids) :
    ∃ (k : Nat) (bs : List BlockId), ids[k]? = some i ∧ blocks[k]? = some bs ∧ (ids.zip blocks).lookup i = some bs := by
  induction ids generalizing blocks with
  | nil => cases hi
  | cons j ids ih =>
    cases blocks with
    | nil => cases hlen
    | cons bs blocks =>
      rw [zip_cons_cons, Dict.lookup_cons_ite]
      by_cases hij : i = j
      · exact ⟨0, bs, by rw [hij]; rfl, rfl, if_pos hij⟩
      · obtain ⟨k, bs', h1, h2, h3⟩ := ih (Nat.succ.inj hlen) ((mem_cons.1 hi).resolve_left hij)
        exact ⟨k + 1, bs', h1, h2, by rw [if_neg hij]; exact h3⟩

theorem lookup_zip_none (hi : i ∉ ids) : (ids.zip blocks).lookup i = none := by
  induction ids generalizing blocks with
  | nil => rfl
  | cons j ids ih =>
    cases blocks with
    | nil => rfl
    | cons bs blocks =>
      rw [mem_cons, not_or] at hi
      rw [zip_cons_cons, Dict.lookup_cons_ite, if_neg hi.1]
      exact ih hi.2

theorem onRecord_store
    (h : CacheHit.Answer c.pool g.spec blockHashes maxLength g.groupIds c.cacheHitAlignmentTokens blocks n) :
    c.OnRecord blockHashes (st.store g.groupIds blocks n) g n := by
  refine ⟨⟨h.greatest.1.2.1, h.greatest.1.2.2⟩, fun i hi => if_pos hi, fun i hi => ?_⟩
  obtain ⟨k, bs, hk, hbs, hlookup⟩ := lookup_zip h.length hi
  obtain ⟨bs', hbs', hlen, hblocks⟩ := h.blocks k i hk
  cases hbs.symm.trans hbs'
  refine ⟨bs, ?_, hlen, hblocks⟩
  simp only [HitSearch.store, hlookup]

theorem OnRecord.store (h : c.OnRecord blockHashes st g n) (hids : ∀ i ∈ g.groupIds, i ∉ ids) :
    c.OnRecord blockHashes (st.store ids blocks n') g n := by
  refine ⟨h.hits, fun i hi => ?_, fun i hi => ?_⟩
  · simp only [HitSearch.store, if_neg (hids i hi)]; exact h.length i hi
  · obtain ⟨bs, hbs, hrest⟩ := h.blocks i hi
    exact ⟨bs, by simp only [HitSearch.store, lookup_zip_none (hids i hi)]; exact hbs, hrest⟩

theorem OnRecord.congr (h : c.OnRecord blockHashes st g n) (h1 : st'.hitBlocksByGroup = st.hitBlocksByGroup)
    (h2 : st'.hitLengthByGroup = st.hitLengthByGroup) : c.OnRecord blockHashes st' g n :=
  ⟨h.hits, fun i hi => h2 ▸ h.length i hi, fun i hi => h1 ▸ h.blocks i hi⟩

theorem searchGroup_cons {first : Nat} {rest : List Nat} (hgi : g.groupIds = first :: rest) (idx : Nat) :
    c.searchGroup blockHashes maxLength st (idx, g) =
      if g.spec.isFullAttention ∧ (st.hitBlocksByGroup first).isSome then
        .ok { st with currHitLength := min st.currHitLength (st.hitLengthByGroup first) }
      else (do
        let dropEagleBlock := g.useEagle && !st.eagleVerified.contains idx
        let (blocks, n) ← CacheHit.findLongestCacheHit c.pool g.spec blockHashes
          (c.maxLookupLength g dropEagleBlock st.currHitLength maxLength) g.groupIds dropEagleBlock
          c.cacheHitAlignmentTokens
        let eagleVerified :=
          if dropEagleBlock then insertNew idx st.eagleVerified
          else if n < st.currHitLength then []
          else st.eagleVerified
        pure ({ st with eagleVerified, currHitLength := n, longestHitLength := max st.longestHitLength n }.store
          g.groupIds blocks n)) := by
  unfold searchGroup
  dsimp only
  split
  · next h => rw [h] at hgi; cases hgi
  · next f r h => cases h.symm.trans hgi; rfl

theorem searchGroup_asked (hc : c.Exact) (hst : c.Search blockHashes maxLength st) (hg : g ∈ c.attentionGroups)
    (hm : g.spec.isFullAttention = true ∨ st.currHitLength ≤ blockHashes.length * c.pool.hashBlockSize) (idx : Nat) :
    ∃ st', c.searchGroup blockHashes maxLength st (idx, g) = .ok st' ∧ c.Asked blockHashes maxLength g st st' := by
  obtain ⟨hsearch, hdvd, hhash, hids, heagle⟩ := hc.good g hg
  obtain ⟨first, rest, hgi⟩ := exists_cons_of_ne_nil hids
  have hfirst : first ∈ g.groupIds := hgi ▸ mem_cons_self ..
  rw [searchGroup_cons hgi]
  by_cases hrec : g.spec.isFullAttention = true ∧ (st.hitBlocksByGroup first).isSome = true
  · -- the group is on record already, and not below the candidate
    obtain ⟨n, hn, hle⟩ := hst.recorded g hg hrec.1 first hfirst hrec.2
    have hmin : min st.currHitLength (st.hitLengthByGroup first) = st.currHitLength := by
      rw [hn.length first hfirst]; omega
    refine ⟨st, by rw [if_pos hrec, hmin],
      ⟨hst, Nat.le_refl _, ⟨n, hn, hle, fun hf => ?_⟩, fun _ _ _ _ h => h, .inr rfl⟩⟩
    rw [hrec.1] at hf; cases hf
  · have hbound : g.spec.isFullAttention = true ∨ st.currHitLength / g.spec.blockSize ≤
        blockHashes.length / (g.spec.blockSize / c.pool.hashBlockSize) := by
      refine hm.imp_right fun hle => ?_
      have hh := Nat.pos_of_dvd_of_pos hhash g.spec.blockSize_pos
      obtain ⟨k, hk⟩ := hhash
      rw [hk, Nat.mul_div_cancel_left k hh, ← Nat.div_div_eq_div_mul]
      exact Nat.div_le_div_right (Nat.div_le_of_le_mul (by rw [Nat.mul_comm]; exact hle))
    obtain ⟨blocks, n, hfind, hans⟩ := CacheHit.findLongestCacheHit_found hc.align hdvd hhash hids hsearch hbound
    rw [if_neg hrec]
    simp only [heagle, Bool.false_and, maxLookupLength, Bool.false_eq_true, false_and, if_false, hfind,
      ok_bind]
    refine ⟨_, rfl, ?_⟩
    refine ⟨⟨fun n' hn' hall => ?_, fun g' hg' hfull i hi hsome => ?_⟩, hans.greatest.1.1, ?_, ?_, ?_⟩
    · -- a common hit is one of this group up to the candidate
      exact hans.greatest.2 ⟨hst.bound n' hn' hall, hall g hg⟩
    · by_cases heq : g' = g
      · subst heq
        exact ⟨n, onRecord_store hans, Nat.le_refl _⟩
      · have hout : ∀ j ∈ g'.groupIds, j ∉ g.groupIds := fun j hj hj' => heq (hc.apart g' hg' g hg j hj hj')
        simp only [HitSearch.store, lookup_zip_none (hout i hi)] at hsome
        obtain ⟨n', hn', hle⟩ := hst.recorded g' hg' hfull i hi hsome
        refine ⟨n', OnRecord.store (hn'.congr ?_ ?_) hout, hans.greatest.1.1.trans hle⟩ <;> rfl
    · exact ⟨n, onRecord_store hans, Nat.le_refl _, fun _ => rfl⟩
    · intro g' hg' hne n' hn'
      refine OnRecord.store (hn'.congr ?_ ?_) fun j hj hj' => hne (hc.apart g' hg' g hg j hj hj') <;> rfl
    · exact .inl hans.greatest.1.2.1

/-! ### Rounds -/

/-- A search past its first group: the candidate is aligned and the hashes reach it. -/
structure Started (c : Coordinator η) (blockHashes : List η) (maxLength : Nat) (st : HitSearch) : Prop where
  search : c.Search blockHashes maxLength st
  aligned : c.cacheHitAlignmentTokens ∣ st.currHitLength
  hashed : st.currHitLength ≤ blockHashes.length * c.pool.hashBlockSize

/-- The group has been asked in a round that began at `start`. -/
def AskedFrom (c : Coordinator η) (blockHashes : List η) (start : Nat) (st : HitSearch) (g : SpecGroup) : Prop :=
  ∃ n, c.OnRecord blockHashes st g n ∧ st.currHitLength ≤ n ∧ (g.spec.isFullAttention = false → n ≤ start)

theorem Started.asked (hst : c.Started blockHashes maxLength st) (h : c.Asked blockHashes maxLength g st st') :
    c.Started blockHashes maxLength st' := by
  refine ⟨h.search, ?_, h.le.trans hst.hashed⟩
  rcases h.aligned with h | h
  · exact h
  · rw [h]; exact hst.aligned

theorem AskedFrom.asked {start : Nat} {g' : SpecGroup} (h : c.AskedFrom blockHashes start st g')
    (hstart : st.currHitLength ≤ start) (hask : c.Asked blockHashes maxLength g st st')
    (hg' : g' ∈ c.attentionGroups) : c.AskedFrom blockHashes start st' g' := by
  by_cases heq : g' = g
  · subst heq
    obtain ⟨n, hn, hle, hlast⟩ := hask.record
    refine ⟨n, hn, hle, fun hf => ?_⟩
    rw [hlast hf]
    exact hask.le.trans hstart
  · obtain ⟨n, hn, hle, hlast⟩ := h
    exact ⟨n, hask.others g' hg' heq n hn, hask.le.trans hle, hlast⟩

theorem searchGroups_asked (hc : c.Exact) (start : Nat) (l : List (Nat × SpecGroup)) (done : List SpecGroup)
    (hl : ∀ ig ∈ l, ig.2 ∈ c.attentionGroups) (hdone : ∀ g ∈ done, g ∈ c.attentionGroups)
    (hst : c.Started blockHashes maxLength st) (hstart : st.currHitLength ≤ start)
    (hasked : ∀ g ∈ done, c.AskedFrom blockHashes start st g) :
    ∃ st', l.foldlM (c.searchGroup blockHashes maxLength) st = .ok st' ∧ c.Started blockHashes maxLength st' ∧
      st'.currHitLength ≤ start ∧ (∀ g ∈ done, c.AskedFrom blockHashes start st' g) ∧
      (∀ ig ∈ l, c.AskedFrom blockHashes start st' ig.2) ∧
      ∀ l' i g, l = l' ++ [(i, g)] → g.spec.isFullAttention = false →
      c.OnRecord blockHashes st' g st'.currHitLength := by
  induction l generalizing st done with
  | nil =>
    refine ⟨st, rfl, hst, hstart, hasked, fun ig h => (not_mem_nil h).elim, fun l' i g h => ?_⟩
    exact absurd h.symm (append_ne_nil_of_right_ne_nil _ (cons_ne_nil _ _))
  | cons ig l ih =>
    have hg : ig.2 ∈ c.attentionGroups := hl ig (mem_cons_self ..)
    obtain ⟨st₁, hst₁, hask⟩ := searchGroup_asked hc hst.search hg (.inr hst.hashed) ig.1
    have hasked₁ : ∀ g ∈ ig.2 :: done, c.AskedFrom blockHashes start st₁ g := by
      intro g hgd
      rcases mem_cons.1 hgd with rfl | hgd
      · obtain ⟨n, hn, hle, hlast⟩ := hask.record
        exact ⟨n, hn, hle, fun hf => by rw [hlast hf]; exact hask.le.trans hstart⟩
      · exact (hasked g hgd).asked hstart hask (hdone g hgd)
    obtain ⟨st', hfold, h1, h2, h3, h4, h5⟩ := ih (ig.2 :: done) (fun x hx => hl x (mem_cons_of_mem _ hx))
      (fun g hgd => by rcases mem_cons.1 hgd with rfl | hgd; exacts [hg, hdone g hgd])
      (hst.asked hask) (hask.le.trans hstart) hasked₁
    refine ⟨st', ?_, h1, h2, fun g hgd => h3 g (mem_cons_of_mem _ hgd), ?_, ?_⟩
    · rw [foldlM_cons, hst₁]; exact hfold
    · intro x hx
      rcases mem_cons.1 hx with rfl | hx
      · exact h3 _ (mem_cons_self ..)
      · exact h4 x hx
    · intro l' i g heq hf
      cases l' with
      | nil =>
        -- the last group leaves its own hit as the candidate
        rw [nil_append, List.cons.injEq] at heq
        obtain ⟨rfl, rfl⟩ := heq
        cases hfold
        obtain ⟨n, hn, -, hlast⟩ := hask.record
        exact hlast hf ▸ hn
      | cons x l' =>
        rw [cons_append, List.cons.injEq] at heq
        exact h5 l' i g heq.2 hf

theorem Exact.hashed (hc : c.Exact) (hg : g ∈ c.attentionGroups) (hf : g.spec.isFullAttention = true)
    (h : c.Hits blockHashes g n) : n ≤ blockHashes.length * c.pool.hashBlockSize := by
  obtain ⟨-, hdvd, hhash, hids, -⟩ := hc.good g hg
  obtain ⟨i, hi⟩ := exists_mem_of_ne_nil _ hids
  have hbn := Nat.div_mul_cancel (hdvd.trans h.1)
  rcases Nat.eq_zero_or_pos (n / g.spec.blockSize) with h0 | hpos
  · rw [h0] at hbn; omega
  · obtain ⟨hash, hhash', -⟩ := h.2 i hi (n / g.spec.blockSize - 1) (by omega) (KVCacheSpec.needsBlock_full hf n _)
    obtain ⟨hlt, -⟩ := List.getElem?_eq_some_iff.1 hhash'
    have hh := Nat.pos_of_dvd_of_pos hhash g.spec.blockSize_pos
    obtain ⟨k, hk⟩ := hhash
    rw [Nat.sub_add_cancel hpos, hk, Nat.mul_div_cancel_left k hh] at hlt
    have hle : n / g.spec.blockSize * k ≤ blockHashes.length := by rw [hk]; omega
    calc n = n / g.spec.blockSize * k * c.pool.hashBlockSize := by
            rw [Nat.mul_assoc, Nat.mul_comm k, ← hk, hbn]
      _ ≤ blockHashes.length * c.pool.hashBlockSize := Nat.mul_le_mul_right _ hle

theorem Exact.start (hc : c.Exact) (hg : g ∈ c.attentionGroups) (hf : g.spec.isFullAttention = true)
    (hask : c.Asked blockHashes maxLength g st st')
    (hfresh : c.cacheHitAlignmentTokens ∣ st.currHitLength ∨ ∀ i, st.hitBlocksByGroup i = none) :
    c.Started blockHashes maxLength st' := by
  obtain ⟨n, hn, hle, -⟩ := hask.record
  refine ⟨hask.search, ?_, hle.trans (hc.hashed hg hf hn.hits)⟩
  rcases hask.aligned with h | rfl
  · exact h
  · rcases hfresh with hal | hnone
    · exact hal
    · obtain ⟨-, -, -, hids, -⟩ := hc.good g hg
      obtain ⟨i, hi⟩ := exists_mem_of_ne_nil _ hids
      obtain ⟨bs, hbs, -⟩ := hn.blocks i hi
      rw [hnone i] at hbs
      cases hbs

/-- The groups agree on the candidate: full attention covers it, the others have exactly it on record. -/
def Agreed (c : Coordinator η) (blockHashes : List η) (st : HitSearch) : Prop :=
  ∀ g ∈ c.attentionGroups, ∃ n, c.OnRecord blockHashes st g n ∧ st.currHitLength ≤ n ∧
    (g.spec.isFullAttention = false → n = st.currHitLength)

theorem zip_range_cons {α : Type} {a : α} {l m : List α} (h : m = a :: l) :
    ∃ l', (List.range m.length).zip m = (0, a) :: l' ∧ l'.map Prod.snd = l := by
  subst h
  refine ⟨((List.range l.length).map Nat.succ).zip l, ?_, ?_⟩
  · rw [length_cons, range_succ_eq_map, zip_cons_cons]
  · exact map_snd_zip (by simp)

/-- One round lowers the candidate or ends with agreement; with two groups it always does. -/
theorem round_spec (hc : c.Exact) (hst : c.Search blockHashes maxLength st)
    (hfresh : c.cacheHitAlignmentTokens ∣ st.currHitLength ∨ ∀ i, st.hitBlocksByGroup i = none) :
    ∃ st', ((List.range c.attentionGroups.length).zip c.attentionGroups).foldlM
        (c.searchGroup blockHashes maxLength) st = .ok st' ∧
      c.Started blockHashes maxLength st' ∧ st'.currHitLength ≤ st.currHitLength ∧
      (st.currHitLength ≤ st'.currHitLength → c.Agreed blockHashes st') ∧
      (c.attentionGroups.length = 2 → c.Agreed blockHashes st') := by
  obtain ⟨g₀, rest, hgroups, hf⟩ := hc.first
  have hg₀ : g₀ ∈ c.attentionGroups := hgroups ▸ mem_cons_self ..
  obtain ⟨l, hl, hsnd⟩ := zip_range_cons hgroups
  have hmem : ∀ ig ∈ l, ig.2 ∈ rest := fun ig hig => hsnd ▸ mem_map.2 ⟨ig, hig, rfl⟩
  obtain ⟨st₁, hst₁, hask⟩ := searchGroup_asked hc hst hg₀ (.inl hf) 0
  obtain ⟨n₀, hn₀, hle₀, -⟩ := hask.record
  have hstarted := hc.start hg₀ hf hask hfresh
  obtain ⟨st', hfold, h1, h2, h3, h4, h5⟩ := searchGroups_asked hc st.currHitLength l [g₀]
    (fun ig hig => hgroups ▸ mem_cons_of_mem _ (hmem ig hig))
    (fun g hg => mem_singleton.1 hg ▸ hg₀) hstarted hask.le
    (fun g hg => mem_singleton.1 hg ▸ ⟨n₀, hn₀, hle₀, fun h => by rw [hf] at h; cases h⟩)
  have hall : ∀ g ∈ c.attentionGroups, c.AskedFrom blockHashes st.currHitLength st' g := by
    intro g hg
    rw [hgroups] at hg
    rcases mem_cons.1 hg with rfl | hg
    · exact h3 g (mem_singleton_self g)
    · rw [← hsnd] at hg
      obtain ⟨ig, hig, rfl⟩ := mem_map.1 hg
      exact h4 ig hig
  refine ⟨st', ?_, h1, h2, fun hkeep g hg => ?_, fun htwo g hg => ?_⟩
  · rw [hl, foldlM_cons, hst₁]; exact hfold
  · obtain ⟨n, hn, hle, hlast⟩ := hall g hg
    exact ⟨n, hn, hle, fun hnf => by have := hlast hnf; omega⟩
  · obtain ⟨n, hn, hle, -⟩ := hall g hg
    cases hfull : g.spec.isFullAttention with
    | true => exact ⟨n, hn, hle, fun h => by cases h⟩
    | false =>
      -- the only other group is the last one
      have hlen : l.length = 1 := by
        have := congrArg List.length hsnd
        rw [length_map] at this
        rw [this]
        rw [hgroups] at htwo
        exact Nat.succ.inj htwo
      obtain ⟨ig, rfl⟩ := length_eq_one_iff.1 hlen
      have hgl : g = ig.2 := by
        rw [hgroups] at hg
        rcases mem_cons.1 hg with rfl | hg
        · rw [hf] at hfull; cases hfull
        · rw [← hsnd] at hg; exact mem_singleton.1 hg
      exact ⟨_, hgl ▸ h5 [] ig.1 ig.2 rfl (hgl ▸ hfull), Nat.le_refl _, fun _ => rfl⟩

/-- The loop ends in agreement, whatever fuel it has above its candidate. -/
theorem searchLoop_spec (hc : c.Exact) (simple : Bool) (hsimple : simple = true → c.attentionGroups.length = 2)
    (hst : c.Search blockHashes maxLength st)
    (hfresh : c.cacheHitAlignmentTokens ∣ st.currHitLength ∨ ∀ i, st.hitBlocksByGroup i = none) :
    ∃ st', (∀ fuel, st.currHitLength < fuel → c.searchLoop blockHashes maxLength simple fuel st.currHitLength st =
        .ok (st'.currHitLength, st')) ∧
      st'.currHitLength ≤ st.currHitLength ∧ c.Started blockHashes maxLength st' ∧ c.Agreed blockHashes st' := by
  induction hn : st.currHitLength using Nat.strong_induction_on generalizing st with
  | _ n ih =>
    subst hn
    obtain ⟨st₁, hfold, hstarted, hle, hkeep, htwo⟩ := round_spec hc hst hfresh
    have hunfold : ∀ fuel, st.currHitLength < fuel →
        c.searchLoop blockHashes maxLength simple fuel st.currHitLength st =
          if st₁.currHitLength ≥ st.currHitLength then .ok (st.currHitLength, st₁)
          else if simple then .ok (st₁.currHitLength, st₁)
          else c.searchLoop blockHashes maxLength simple (fuel - 1) st₁.currHitLength st₁ := by
      intro fuel hfuel
      obtain ⟨fuel, rfl⟩ := Nat.exists_eq_succ_of_ne_zero (Nat.ne_zero_of_lt hfuel)
      rw [searchLoop, hfold]
      rfl
    by_cases hge : st₁.currHitLength ≥ st.currHitLength
    · have heq : st₁.currHitLength = st.currHitLength := Nat.le_antisymm hle hge
      refine ⟨st₁, fun fuel hfuel => ?_, hle, hstarted, hkeep hge⟩
      rw [hunfold fuel hfuel, if_pos hge, heq]
    cases hs : simple with
    | true =>
      refine ⟨st₁, fun fuel hfuel => ?_, hle, hstarted, htwo (hsimple hs)⟩
      rw [← hs, hunfold fuel hfuel, if_neg hge, if_pos hs]
    | false =>
      obtain ⟨st', hloop, hle', hrest⟩ := ih st₁.currHitLength (Nat.lt_of_not_le hge) hstarted.search
        (.inl hstarted.aligned) rfl
      refine ⟨st', fun fuel hfuel => ?_, hle'.trans hle, hrest⟩
      rw [← hs, hunfold fuel hfuel, if_neg hge, if_neg (by simp [hs])]
      exact hloop (fuel - 1) (by omega)

/-! ### The whole lookup -/

def isSimpleHybrid (c : Coordinator η) : Bool :=
  c.attentionGroups.length == 2 && (c.attentionGroups.head?.any fun g => g.spec.isFullAttention)

def HitSearch.start (maxLength : Nat) : HitSearch where
  currHitLength := maxLength
  longestHitLength := 0
  hitBlocksByGroup := fun _ => none
  hitLengthByGroup := fun _ => 0
  eagleVerified := []

/-- What the constructor of a hybrid coordinator fixes. -/
structure Hybrid (cfg : KVCacheConfig) (o : KVCacheOptions) (c : Coordinator η) : Prop where
  managers : c.managers.length = cfg.groups.length
  groups : c.attentionGroups = splitKvCacheGroups (cfg.groups.map KVCacheGroupSpec.spec) (eagleGroups cfg o.useEagle)
  sched : c.schedulerBlockSize = o.schedulerBlockSize
  hash : c.hashBlockSize = o.hashBlockSize
  partialHits : c.enablePartialHashHits = partialHashHits (cfg.groups.map KVCacheGroupSpec.spec) o.hashBlockSize
  schedSizes : ∀ g ∈ cfg.groups, g.spec.blockSize ∣ o.schedulerBlockSize
  hashSizes : ∀ g ∈ cfg.groups, g.spec.prefixCacheable = true → o.hashBlockSize ∣ g.spec.blockSize

omit [DecidableEq η] in
theorem hybrid_of_init (h : init cfg o = .ok c) (hkind : c.kind = .hybrid) (p : BlockPool η) :
    Hybrid cfg o { c with pool := p } := by
  simp only [init, do_eq_ok] at h
  obtain ⟨-, ⟨-, hsizes⟩, pool, -, -, -, interval, -, _, hcheck, rfl⟩ := h
  have hkind : kindFor cfg o.enableCaching = .hybrid := hkind
  simp only [checkKind, hkind, bind_eq_ok, ensure_eq_ok] at hcheck
  obtain ⟨_, hhash, -⟩ := hcheck
  refine ⟨?_, if_pos hkind, rfl, rfl, ?_, fun g hg => ?_, fun g hg hp => ?_⟩
  · simp [initManagers]
  · simp only [hkind, decide_true, Bool.true_and]
  · exact Nat.dvd_of_mod_eq_zero (hsizes _ (mem_map_of_mem hg))
  · exact Nat.dvd_of_mod_eq_zero (hhash _ (mem_map_of_mem hg) hp)

theorem not_mem_eagleGroups (h : ∀ g ∈ cfg.groups, g.isEagleGroup = false) : eagleGroups cfg false = [] := by
  unfold eagleGroups
  simp only [Bool.false_and, Bool.false_eq_true, if_false, filterMap_eq_nil_iff]
  rintro ⟨i, g⟩ hig
  rw [if_neg (by rw [h g (of_mem_zip hig).2]; exact Bool.false_ne_true)]

/-- What holds of a new group and is kept by one id more holds of every group. -/
theorem forall_mem_split {P : SpecGroup → Prop} {eagle : List Nat}
    (hnew : ∀ i s, s.prefixCacheable = true → P ⟨s, [i], eagle.contains i⟩)
    (hadd : ∀ g i, P g → P { g with groupIds := g.groupIds ++ [i], useEagle := g.useEagle || eagle.contains i }) :
    ∀ g ∈ splitKvCacheGroups specs eagle, P g := by
  have hfold := foldlRecOn (motive := fun gs => ∀ g ∈ gs, P g) ((List.range specs.length).zip specs) (fun gs is =>
      if is.2.prefixCacheable then addToSpecGroups gs is.1 is.2 (eagle.contains is.1) else gs)
    (fun g h => (not_mem_nil h).elim) fun gs ih is _ => by
      split
      · next hp =>
        rcases addToSpecGroups_cases gs is.1 is.2 (eagle.contains is.1) with ⟨l, g, r, rfl, -, h⟩ | ⟨-, h⟩
        · rw [h]
          simp only [forall_mem_append, forall_mem_cons] at ih ⊢
          exact ⟨ih.1, hadd g _ ih.2.1, ih.2.2⟩
        · rw [h, forall_mem_append, forall_mem_singleton]
          exact ⟨ih, hnew _ _ hp⟩
      · exact ih
  intro g hg
  rcases mem_append.1 hg with hg | hg <;> exact hfold g (mem_filter.1 hg).1

omit [DecidableEq η] in
theorem Hybrid.specGroups (h : c.Hybrid cfg o) : SpecGroups (cfg.groups.map KVCacheGroupSpec.spec) c.attentionGroups :=
  h.groups ▸ specGroups_split ..

omit [DecidableEq η] in
theorem Hybrid.of_mem (h : c.Hybrid cfg o) (hg : g ∈ c.attentionGroups) : ∃ gs ∈ cfg.groups, gs.spec = g.spec := by
  obtain ⟨hids, hspec⟩ := h.specGroups.ids g hg
  obtain ⟨i, hi⟩ := exists_mem_of_ne_nil _ hids
  exact mem_map.1 (mem_of_getElem? (hspec i hi))

omit [DecidableEq η] in
/-- Block sizes that divide the alignment leave no room for hits inside a block. -/
theorem Hybrid.whole (h : c.Hybrid cfg o) (hdvd : ∀ g ∈ cfg.groups, g.spec.blockSize ∣ c.cacheHitAlignmentTokens)
    (hhash : 0 < o.hashBlockSize) : c.enablePartialHashHits = false := by
  rw [Bool.eq_false_iff]
  intro hp
  have hA : c.cacheHitAlignmentTokens = o.hashBlockSize := by rw [cacheHitAlignmentTokens, if_pos hp, h.hash]
  rw [h.partialHits, partialHashHits, Bool.and_eq_true, any_eq_true] at hp
  obtain ⟨⟨s, hs, hbig⟩, -⟩ := hp
  obtain ⟨g, hg, rfl⟩ := mem_map.1 hs
  rw [Bool.and_eq_true, decide_eq_true_eq] at hbig
  have := Nat.le_of_dvd hhash (hA ▸ hdvd g hg)
  omega

omit [DecidableEq η] in
theorem Hybrid.exact (h : c.Hybrid cfg o) (hpool : c.pool.hashBlockSize = o.hashBlockSize)
    (hsched : 0 < o.schedulerBlockSize) (huse : o.useEagle = false) (heagle : ∀ g ∈ cfg.groups, g.isEagleGroup = false)
    (hspecs : ∀ g ∈ cfg.groups, CacheHit.Searchable g.spec c.cacheHitAlignmentTokens ∧
      g.spec.blockSize ∣ c.cacheHitAlignmentTokens) (hfull : ∃ g ∈ cfg.groups, g.spec.isFullAttention = true) :
      c.Exact := by
  have hcache : ∀ g ∈ cfg.groups, g.spec.prefixCacheable = true := fun g hg => (hspecs g hg).1.prefixCacheable
  have hsplit := h.specGroups
  obtain ⟨gf, hgf, hff⟩ := hfull
  have hhash : 0 < o.hashBlockSize := Nat.pos_of_dvd_of_pos (h.hashSizes gf hgf (hcache gf hgf)) gf.spec.blockSize_pos
  have hwhole := h.whole (fun g hg => (hspecs g hg).2) hhash
  refine ⟨?_, fun g hg => ?_, fun g hg g' hg' i hi hi' => hsplit.apart hg hg' hi hi', ?_⟩
  · rw [cacheHitAlignmentTokens, hwhole, if_neg Bool.false_ne_true, h.sched]; exact hsched
  · obtain ⟨gs, hgs, he⟩ := h.of_mem hg
    rw [← he]
    refine ⟨(hspecs gs hgs).1, (hspecs gs hgs).2, ?_, (hsplit.ids g hg).1, ?_⟩
    · rw [hpool]; exact h.hashSizes gs hgs (hcache gs hgs)
    · rw [h.groups, huse, not_mem_eagleGroups heagle] at hg
      exact forall_mem_split (P := fun g => g.useEagle = false) (fun _ _ _ => rfl) (fun g i h => by simp [h]) g hg
  · -- some group is full attention, and these come first
    obtain ⟨i, hi, hget⟩ := getElem_of_mem hgf
    have hi' : (cfg.groups.map KVCacheGroupSpec.spec)[i]? = some gf.spec := by
      rw [getElem?_map, getElem?_eq_getElem hi, hget]; rfl
    obtain ⟨g, hg, hgs, -⟩ := hsplit.cover i gf.spec hi' (hcache gf hgf)
    obtain ⟨full, rest, hgroups, hfulls, hrest⟩ := hsplit.sorted
    cases full with
    | nil =>
      rw [hgroups, nil_append] at hg
      have := hrest g hg
      rw [hgs, hff] at this
      cases this
    | cons g₀ full => exact ⟨g₀, full ++ rest, hgroups, hfulls g₀ (mem_cons_self ..)⟩

theorem Hits.of_le (h : c.Hits blockHashes g n) (hf : g.spec.isFullAttention = true) (hle : n' ≤ n)
    (hal : c.cacheHitAlignmentTokens ∣ n') : c.Hits blockHashes g n' := by
  refine ⟨hal, fun i hi j hj _ => h.2 i hi j ?_ (KVCacheSpec.needsBlock_full hf n j)⟩
  exact Nat.lt_of_lt_of_le hj (Nat.div_le_div_right hle)

omit [DecidableEq η] in
theorem Hybrid.exists_specGroup {gs : KVCacheGroupSpec} {i : Nat} (h : c.Hybrid cfg o) (hi : cfg.groups[i]? = some gs)
    (hcache : gs.spec.prefixCacheable = true) : ∃ g ∈ c.attentionGroups, g.spec = gs.spec ∧ i ∈ g.groupIds :=
  h.specGroups.cover i gs.spec (by rw [getElem?_map, hi]; rfl) hcache

/-- Every group has a hit exactly when every group of one spec has. -/
theorem Hybrid.forall_hasHit_iff (h : c.Hybrid cfg o) (hc : c.Exact)
    (hcache : ∀ gs ∈ cfg.groups, gs.spec.prefixCacheable = true) (blockHashes : List η) (n : Nat) :
    (c.cacheHitAlignmentTokens ∣ n ∧
      ∀ (i : Nat) gs, cfg.groups[i]? = some gs → c.pool.HasHit gs.spec blockHashes i n) ↔
      ∀ g ∈ c.attentionGroups, c.Hits blockHashes g n := by
  constructor
  · rintro ⟨hal, hhit⟩ g hg
    refine ⟨hal, fun i hi => ?_⟩
    have hspec := (h.specGroups.ids g hg).2 i hi
    rw [getElem?_map, Option.map_eq_some_iff] at hspec
    obtain ⟨gs, hgs, he⟩ := hspec
    exact he ▸ hhit i gs hgs
  · intro hhits
    obtain ⟨g₀, rest, hgroups, -⟩ := hc.first
    refine ⟨(hhits g₀ (hgroups ▸ mem_cons_self ..)).1, fun i gs hi => ?_⟩
    obtain ⟨g, hg, he, hmem⟩ := h.exists_specGroup hi (hcache gs (mem_of_getElem? hi))
    exact he ▸ (hhits g hg).2 i hmem

/-- Without EAGLE the search of the hybrid coordinator ends, and it returns the greatest aligned length at
which every group has a hit of its own, with the blocks of these hits. -/
theorem hybrid_hit_greatest {cfg : KVCacheConfig} {o : KVCacheOptions} {p : BlockPool η}
    (hinit : init cfg o = .ok c) (hkind : c.kind = .hybrid) (hpool : p.hashBlockSize = o.hashBlockSize)
    (hsched : 0 < o.schedulerBlockSize) (huse : o.useEagle = false) (heagle : ∀ g ∈ cfg.groups, g.isEagleGroup = false)
    (hspecs : ∀ g ∈ cfg.groups, CacheHit.Searchable g.spec c.cacheHitAlignmentTokens ∧
      g.spec.blockSize ∣ c.cacheHitAlignmentTokens)
    (hfull : ∃ g ∈ cfg.groups, g.spec.isFullAttention = true) (blockHashes : List η) (maxLength : Nat) :
    ∃ blocks hitLength uncached,
      { c with pool := p }.findLongestCacheHit blockHashes maxLength = .ok (blocks, hitLength, uncached) ∧
      (∃ st, ∀ fuel, maxLength < fuel → { c with pool := p }.searchLoop blockHashes maxLength c.isSimpleHybrid fuel
        maxLength (HitSearch.start maxLength) = .ok (hitLength, st)) ∧
      IsGreatest {n | n ≤ maxLength ∧ c.cacheHitAlignmentTokens ∣ n ∧
        ∀ (i : Nat) g, cfg.groups[i]? = some g → p.HasHit g.spec blockHashes i n} hitLength ∧
      blocks.length = cfg.groups.length ∧
      ∀ (i : Nat) g, cfg.groups[i]? = some g → ∃ bs, blocks[i]? = some bs ∧
        bs.length = cdiv hitLength g.spec.blockSize ∧ CacheHit.GroupBlocks p g.spec blockHashes i bs := by
  have h := hybrid_of_init hinit hkind p
  have hc : Exact { c with pool := p } := h.exact hpool hsched huse heagle hspecs hfull
  have hcache : ∀ g ∈ cfg.groups, g.spec.prefixCacheable = true := fun g hg => (hspecs g hg).1.prefixCacheable
  -- from here on the coordinator is the one with the pool `p`
  have hsame : c.cacheHitAlignmentTokens = { c with pool := p }.cacheHitAlignmentTokens ∧
    c.isSimpleHybrid = { c with pool := p }.isSimpleHybrid ∧ { c with pool := p }.kind = .hybrid ∧
    { c with pool := p }.pool = p := ⟨rfl, rfl, hkind, rfl⟩
  rw [hsame.1, hsame.2.1]
  generalize { c with pool := p } = c at h hc hsame ⊢
  obtain ⟨-, -, hkind, rfl⟩ := hsame
  have hall := h.forall_hasHit_iff hc hcache blockHashes
  -- run the loop from the initial state
  have hstart : c.Search blockHashes maxLength (HitSearch.start maxLength) :=
    ⟨fun n hn _ => hn, fun g _ _ i _ hsome => by cases hsome⟩
  obtain ⟨st, hloop, hle, hstarted, hagreed⟩ := searchLoop_spec hc c.isSimpleHybrid
    (fun hs => by rw [isSimpleHybrid, Bool.and_eq_true, beq_iff_eq] at hs; exact hs.1) hstart (.inr fun _ => rfl)
  have hloop' : ∀ fuel, maxLength < fuel → c.searchLoop blockHashes maxLength c.isSimpleHybrid fuel maxLength
      (HitSearch.start maxLength) = .ok (st.currHitLength, st) := hloop
  have hrun := hloop' (maxLength + 1) (Nat.lt_succ_self maxLength)
  simp only [isSimpleHybrid, HitSearch.start] at hrun
  simp only [Coordinator.findLongestCacheHit, hkind, hybridFindLongestCacheHit, hrun, ok_bind]
  refine ⟨_, _, _, rfl, ⟨st, hloop'⟩, ⟨⟨hle, (hall _).2 fun sg hsg => ?_⟩, fun n hn => ?_⟩, ?_, fun i g hi => ?_⟩
  · obtain ⟨n, hn, hle', hlast⟩ := hagreed sg hsg
    cases hf : sg.spec.isFullAttention with
    | true => exact hn.hits.of_le hf hle' hstarted.aligned
    | false => exact hlast hf ▸ hn.hits
  · exact hstarted.search.bound n hn.1 ((hall n).1 hn.2)
  · rw [length_map, length_range, h.managers]
  · obtain ⟨sg, hsg, he, hmem⟩ := h.exists_specGroup hi (hcache g (mem_of_getElem? hi))
    obtain ⟨n, hn, hle', hlast⟩ := hagreed sg hsg
    obtain ⟨bs, hbs, hlen, hblocks⟩ := hn.blocks i hmem
    obtain ⟨-, hdvd, -⟩ := hc.good sg hsg
    have hcdiv := cdiv_of_dvd sg.spec.blockSize_pos (hdvd.trans hstarted.aligned)
    have hi' : i < c.managers.length := by
      rw [h.managers]; exact (List.getElem?_eq_some_iff.1 hi).1
    have hex : (c.attentionGroups.find? fun g => g.groupIds.contains i).isSome :=
      find?_isSome.2 ⟨sg, hsg, contains_iff_mem.2 hmem⟩
    obtain ⟨sg', hfind⟩ := Option.isSome_iff_exists.1 hex
    obtain rfl := hc.apart sg hsg sg' (mem_of_find?_eq_some hfind) i hmem (by simpa using find?_some hfind)
    rw [getElem?_map, getElem?_range hi', ← he]
    simp only [Option.map_some, hbs, hfind]
    cases hf : sg.spec.isFullAttention with
    | true =>
      -- full attention is cut to the final length
      refine ⟨_, rfl, ?_, fun j b hj => ?_⟩
      · rw [if_pos rfl, length_take, hlen, hcdiv]
        exact Nat.min_eq_left (Nat.div_le_div_right hle')
      · rw [if_pos rfl, getElem?_take] at hj
        split at hj
        · exact hblocks j b hj
        · cases hj
    | false =>
      refine ⟨_, rfl, ?_, ?_⟩
      · rw [if_neg Bool.false_ne_true, hlen, hlast hf, hcdiv]
      · rw [if_neg Bool.false_ne_true]; exact hblocks

/-- Full attention, a sliding window and a recurrent state, in blocks of 2 and 4 tokens. -/
def mixedGroups : KVCacheConfig where
  numBlocks := 9
  groups := [⟨{ blockSize := 2, kind := .fullAttention }, false⟩,
    ⟨{ blockSize := 2, kind := .slidingWindow 3 0 }, false⟩,
    ⟨{ blockSize := 4, kind := .mamba { mambaCacheMode := .all } }, false⟩]

def mixedOptions : KVCacheOptions where
  maxModelLen := 16
  maxInFlightTokens := 16
  schedulerBlockSize := 4
  hashBlockSize := 2

/-- Eight tokens are cached for full attention and the window, but only the first state. -/
def mixedIndex : BlockHashToBlockMap Nat :=
  [(10, 0, 1), (20, 0, 2), (30, 0, 3), (40, 0, 4), (20, 1, 5), (30, 1, 6), (40, 1, 7), (20, 2, 8)].foldl
    (fun m e => m.insert ⟨e.1, e.2.1⟩ e.2.2) Dict.empty

theorem hybrid_hit_greatest_mixed : ∃ c, init mixedGroups mixedOptions = .ok c ∧
    IsGreatest {n | n ≤ 9 ∧ c.cacheHitAlignmentTokens ∣ n ∧ ∀ (i : Nat) g, mixedGroups.groups[i]? = some g →
      ({ c.pool with cachedBlockHashToBlock := mixedIndex }).HasHit g.spec [10, 20, 30, 40] i n} 4 := by
  have hspecs : ∀ g ∈ mixedGroups.groups, CacheHit.Searchable g.spec 4 ∧ g.spec.blockSize ∣ 4 := by
    simp [mixedGroups, CacheHit.Searchable]
  obtain ⟨c, hinit, hkind, hhash, hA, hfind⟩ : ∃ c : Coordinator Nat, init mixedGroups mixedOptions = .ok c ∧
      c.kind = .hybrid ∧ c.pool.hashBlockSize = 2 ∧ c.cacheHitAlignmentTokens = 4 ∧
      { c with pool := { c.pool with cachedBlockHashToBlock := mixedIndex } }.findLongestCacheHit [10, 20, 30, 40] 9 =
        .ok ([[1, 2], [0, 5], [8]], 4, 4) := ⟨_, rfl, rfl, rfl, rfl, rfl⟩
  obtain ⟨blocks, n, uncached, hfind', -, hgreatest, -⟩ := hybrid_hit_greatest
    (p := { c.pool with cachedBlockHashToBlock := mixedIndex }) hinit hkind hhash (by decide) rfl (by decide)
    (hA ▸ hspecs) (by decide) [10, 20, 30, 40] 9
  cases hfind.symm.trans hfind'
  exact ⟨c, hinit, hgreatest⟩

def smallChunks : KVCacheConfig where
  numBlocks := 4
  groups := [⟨{ blockSize := 4, kind := .fullAttention }, false⟩, ⟨{ blockSize := 2, kind := .chunkedLocal 4 }, false⟩]

def oneTokenWindow : KVCacheConfig where
  numBlocks := 4
  groups := [⟨{ blockSize := 2, kind := .fullAttention }, false⟩,
    ⟨{ blockSize := 2, kind := .slidingWindow 1 0 }, false⟩]

/-- Two blocks are cached for full attention and none for the window. -/
def fullIndex : BlockHashToBlockMap Nat :=
  [(10, 1), (20, 2)].foldl (fun m e => m.insert ⟨e.1, 0⟩ e.2) Dict.empty

/-- A chunked-local group of smaller blocks makes every lookup raise. A window of one token reads no earlier block,
so the two cached blocks of full attention are a hit of both groups, but the lookup asks for one of the window. -/
theorem small_chunked_local_rejected : (∃ c : Coordinator Nat, init smallChunks mixedOptions = .ok c ∧
    c.kind = .hybrid ∧
      (∀ g ∈ smallChunks.groups, g.spec.blockSize ∣ c.cacheHitAlignmentTokens) ∧
      c.findLongestCacheHit [10, 20] 4 = .error (.assertionError
        "KV cache groups with different block sizes are not compatible with chunked local attention now")) ∧
    ∃ (c : Coordinator Nat) (p : BlockPool Nat), init oneTokenWindow mixedOptions = .ok c ∧ c.kind = .hybrid ∧
      (∀ g ∈ oneTokenWindow.groups, g.spec.blockSize ∣ c.cacheHitAlignmentTokens) ∧
      { c with pool := p }.findLongestCacheHit [10, 20] 4 = .ok ([[], []], 0, 4) ∧
      c.cacheHitAlignmentTokens ∣ 4 ∧
      ∀ (i : Nat) g, oneTokenWindow.groups[i]? = some g → p.HasHit g.spec [10, 20] i 4 := by
  constructor
  · refine ⟨_, rfl, rfl, ?_, rfl⟩
    show ∀ g ∈ smallChunks.groups, g.spec.blockSize ∣ 4
    decide
  · have hrun : ∃ c : Coordinator Nat, init oneTokenWindow mixedOptions = .ok c ∧ c.kind = .hybrid ∧
        c.cacheHitAlignmentTokens = 4 ∧
        { c with pool := { c.pool with cachedBlockHashToBlock := fullIndex } }.findLongestCacheHit [10, 20] 4 =
          .ok ([[], []], 0, 4) ∧
        ∀ j < 2, ({ c.pool with cachedBlockHashToBlock := fullIndex }).CachedAt [10, 20] 2 0 j :=
      ⟨_, rfl, rfl, rfl, rfl, by decide⟩
    obtain ⟨c, hinit, hkind, hA, hfind, hcached⟩ := hrun
    refine ⟨c, _, hinit, hkind, by rw [hA]; decide, hfind, hA ▸ Nat.dvd_refl 4, fun i g hg j hj hneed => ?_⟩
    rcases i with _ | _ | i
    · cases hg
      exact hcached j hj
    · cases hg
      have hlt : 4 < (j + 1) * 2 + (1 - 1) := hneed
      have hj : j < 2 := hj
      omega
    · cases hg

end Search

end Coordinator

end VllmCore
