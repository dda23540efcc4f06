import VllmCore.Layout.NoOverlap
import VllmCore.Layout.GroupPartition

/-! # Shared slots do not overlap

Where Mamba states share the slots of latent attention and scratch tails those of the indexer, the
allocation is a row of slots, each a run of pages, one for every block. A byte gives back its slot and its
block, and a group has one layer in a slot. With the region plans this covers every plan that
`get_kv_cache_config_from_groups` makes. -/

namespace VllmCore.MemoryPlan
open Except List Option
variable {s : LayerSpec} {a name : LayerName}
variable {given : List LayerSpec} {groups : List KVCacheGroupSpec} {slots : SharedSlots} {b : LayerName}
  {e : (LayerName × LayerSpec) × Nat} {ts : List KVCacheTensor} {req : LayoutRequest}

/-! ### What is recognized -/

/-- The latent-attention group `g` and what shares its slots, as `_glm5_next_tensor_layout` found them. -/
structure Recognized (groups : List KVCacheGroupSpec) (slots : SharedSlots) (g : KVCacheGroupSpec)
    (specs : LayerSpecs) :
    Prop where
  mem : g ∈ groups
  spec : ∃ b, g.kvCacheSpec = .uniformType b specs
  attn : isAttnGroup g = true
  unpadded : ∀ e ∈ specs, e.2.pageSizePadded = none
  mla : ∀ e ∈ slots.mla, e.1 ∈ g.layerNames ∧ specs.lookup e.1 = some e.2 ∧ e.2.pageSize = slots.mlaPage ∧
    ∃ t, e.2.tokensPerState? = some t ∧ t.num = t.den
  idx : ∀ e ∈ slots.idx, e.1 ∈ g.layerNames ∧ specs.lookup e.1 = some e.2 ∧ e.2.pageSize = slots.idxPage ∧
    ∃ t, e.2.tokensPerState? = some t ∧ t.den < t.num
  mla_ne : slots.mla ≠ []
  idx_ne : slots.idx ≠ []
  mamba : ∀ e ∈ slots.mambaGroups, ∃ g' ∈ groups, g'.layerNames = e.1 ∧ g'.kvCacheSpec = .single e.2 ∧
    e.2.pageSize = slots.mlaPage
  tails : slots.tailNames = [] ∨ ∃ g' ∈ groups, isTailGroup g' = true ∧ g'.layerNames = slots.tailNames

theorem getSpec_eq_ok {specs : LayerSpecs} : Grouping.getSpec specs name = .ok s ↔ specs.lookup name = some s := by
  unfold Grouping.getSpec
  cases specs.lookup name with
  | none => simp
  | some t => simp

theorem mem_of_uniformSpecs? {g : KVCacheGroupSpec} (h : isAttnGroup g = true) :
    ∃ b, g.kvCacheSpec = .uniformType b ((uniformSpecs? g).getD []) := by
  unfold isAttnGroup at h
  cases hs : g.kvCacheSpec with
  | single s =>
    simp [uniformSpecs?, hs] at h
  | uniformType b specs => exact ⟨b, by simp [uniformSpecs?, hs]⟩

theorem mambaSpec?_eq {g : KVCacheGroupSpec} (h : mambaSpec? g = some s) : g.kvCacheSpec = .single s := by
  unfold mambaSpec? at h
  split at h
  · next t ht =>
    split_ifs at h
    rw [ht, some.inj h]
  · cases h

theorem findTails_eq {n p : Nat} {names : List LayerName} (h : findTails groups n p = some names) :
    names = [] ∨ ∃ g ∈ groups, isTailGroup g = true ∧ g.layerNames = names := by
  unfold findTails at h
  split at h
  · exact .inl (some.inj h).symm
  · next g hg =>
    obtain ⟨hmem, htail⟩ := mem_filter.1 (mem_of_getLast? hg)
    split at h
    · split_ifs at h
      exact .inr ⟨g, hmem, htail, some.inj h⟩
    · cases h

theorem sharedSlots_ok (h : sharedSlots groups = .ok (some slots)) : ∃ g specs, Recognized groups slots g specs := by
  simp only [sharedSlots] at h
  split at h
  · cases h
  · next g hg =>
    obtain ⟨hmem, hattn⟩ := mem_filter.1 (mem_of_getLast? hg)
    split_ifs at h with hno
    · cases h
    · push Not at hno
      simp only [bind_eq_ok] at h
      obtain ⟨attn, hlist, h⟩ := h
      have hlookup : ∀ e ∈ attn, e.1 ∈ g.layerNames ∧ ((uniformSpecs? g).getD []).lookup e.1 = some e.2 := by
        intro e he
        obtain ⟨name, hname, hget⟩ := (mapM_eq_ok.1 hlist).exists_left he
        simp only [do_eq_ok] at hget
        obtain ⟨s, hs, rfl⟩ := hget
        exact ⟨hname, getSpec_eq_ok.1 hs⟩
      split at h
      · next mlaPage idxPage hmla hidx =>
        simp only [bind_eq_ok] at h
        obtain ⟨pages, hpages, h⟩ := h
        split_ifs at h with hall
        · obtain ⟨names, htails, rfl⟩ := map_eq_some_iff.1 (pure_eq_ok.1 h)
          -- the only page size of a part
          have hpage : ∀ {l : LayerSpecs} {p : Nat}, (l.map fun e => e.2.pageSize).dedup = [p] →
              l ≠ [] ∧ ∀ e ∈ l, e.2.pageSize = p := by
            intro l p hp
            refine ⟨fun hnil => by simp [hnil] at hp, fun e he => ?_⟩
            have := mem_dedup.2 (mem_map_of_mem (f := fun e : LayerName × LayerSpec => e.2.pageSize) he)
            simpa [hp] using this
          refine ⟨g, _, hmem, mem_of_uniformSpecs? hattn, hattn, hno.2.2, fun e he => ?_, fun e he => ?_,
            (hpage hmla).1,
            (hpage hidx).1, fun e he => ?_, findTails_eq htails⟩
          · obtain ⟨hin, ht⟩ := mem_filter.1 he
            obtain ⟨t, htok, hone⟩ := (Option.any_eq_true ..).1 ht
            exact ⟨(hlookup e hin).1, (hlookup e hin).2, (hpage hmla).2 e he, t, htok, by simpa using hone⟩
          · obtain ⟨hin, ht⟩ := mem_filter.1 he
            obtain ⟨t, htok, hone⟩ := (Option.any_eq_true ..).1 ht
            exact ⟨(hlookup e hin).1, (hlookup e hin).2, (hpage hidx).2 e he, t, htok, by simpa using hone⟩
          · obtain ⟨p, hp, hok⟩ := (mapM_eq_ok.1 hpages).exists_right he
            obtain ⟨g', hg', hsome⟩ := mem_filterMap.1 he
            obtain ⟨s, hs, rfl⟩ := map_eq_some_iff.1 hsome
            exact ⟨g', hg', rfl, mambaSpec?_eq hs, (sound_of_pageSizeBytes hok).2 ▸ hall p hp⟩
        · cases h
      · cases h

namespace Recognized
variable {g : KVCacheGroupSpec} {specs : LayerSpecs} {layout : KVCacheLayout}

/-- A page of latent attention that holds anything has a block to fill. -/
theorem blockSize_pos (hwf : WellFormed given groups) (h : Recognized groups slots g specs)
    (hbytes : slots.mla.length * slots.mlaPage + slots.idx.length * slots.idxPage ≠ 0) :
    ∃ b, 0 < b ∧ ∀ e ∈ specs, e.2.blockSize = b := by
  obtain ⟨b, hspec⟩ := h.spec
  obtain ⟨first, hfirst⟩ := exists_mem_of_ne_nil _ h.mla_ne
  obtain ⟨-, hblock⟩ := hwf.uniform g h.mem b specs hspec (ne_nil_of_mem (h.mla first hfirst).1)
  refine ⟨b, Nat.pos_of_ne_zero fun hzero => hbytes ?_, hblock⟩
  -- without tokens in a block there are no states, and the pages are empty
  have hempty : ∀ e : LayerName × LayerSpec, specs.lookup e.1 = some e.2 → (e.2.tokensPerState?).isSome →
      e.2.pageSize = 0 := by
    intro e he htok
    have hmem := Grouping.mem_of_lookup he
    have hb := hblock _ hmem
    rw [LayerSpec.pageSize, h.unpadded _ hmem]
    cases hs : e.2 with
    | mamba m =>
      rw [hs] at htok
      cases htok
    | attention a =>
      rw [hs, hzero] at hb
      have hstates : a.fields.numStates = 0 := by
        rw [AttentionSpec.numStates, show a.fields.blockSize = 0 from hb, Nat.zero_mul, Nat.zero_div]
      simp [LayerSpec.realPageSizeBytes, AttentionSpec.unpaddedPageSizeBytes, hstates]
  obtain ⟨-, hlook, hpage, t, ht, -⟩ := h.mla first hfirst
  obtain ⟨first', hfirst'⟩ := exists_mem_of_ne_nil _ h.idx_ne
  obtain ⟨-, hlook', hpage', t', ht', -⟩ := h.idx first' hfirst'
  rw [← hpage, ← hpage', hempty first hlook (by rw [ht]; rfl), hempty first' hlook' (by rw [ht']; rfl)]
  rfl

/-- Latent attention has a state for every token, the indexer fewer: the shapes differ, and the layout keeps
every page together. -/
theorem isBlockCompact (hwf : WellFormed given groups) (hslots : sharedSlots groups = .ok (some slots))
    (h : Recognized groups slots g specs) (hlayout : resolveKvCacheLayout req given = .ok layout)
    (hbytes : slots.mla.length * slots.mlaPage + slots.idx.length * slots.idxPage ≠ 0) :
    layout.isBlockCompact = true := by
  rcases resolveKvCacheLayout_ok hlayout with hc | hshape
  · exact hc
  obtain ⟨b, hpos, hblock⟩ := h.blockSize_pos hwf hbytes
  obtain ⟨e, he⟩ := exists_mem_of_ne_nil _ h.mla_ne
  obtain ⟨e', he'⟩ := exists_mem_of_ne_nil _ h.idx_ne
  have hsame : e.2.numStates = e'.2.numStates := congrArg (fun p => p.2.1)
    (hshape e.2 (hwf.latent slots hslots e (mem_append_left _ he)) e'.2
      (hwf.latent slots hslots e' (mem_append_right _ he')))
  obtain ⟨-, hlook, -, t, ht, hone⟩ := h.mla e he
  obtain ⟨-, hlook', -, t', ht', hmany⟩ := h.idx e' he'
  have hb := hblock _ (Grouping.mem_of_lookup hlook)
  have hb' := hblock _ (Grouping.mem_of_lookup hlook')
  have hstates : ∀ {s : LayerSpec} {t : TokensPerState}, s.tokensPerState? = some t → s.blockSize = b →
      s.numStates = b * t.den / t.num := by
    intro s t ht hb
    cases s with
    | mamba m => cases ht
    | attention a =>
      obtain rfl := some.inj ht
      rw [← hb]
      rfl
  rw [hstates ht hb, hstates ht' hb', hone, Nat.mul_div_cancel _ t.den_pos] at hsame
  have hlt : b * t'.den / t'.num < b := Nat.div_lt_of_lt_mul (by
    rw [Nat.mul_comm t'.num]
    exact Nat.mul_lt_mul_of_pos_left hmany hpos)
  omega

end Recognized

/-! ### Slots -/

def InMlaSlot (slots : SharedSlots) (k : Nat) (name : LayerName) : Prop :=
  (∃ s, slots.mla[k]? = some (name, s)) ∨ ∃ e ∈ slots.mambaGroups, e.1[k]? = some name

def InIdxSlot (slots : SharedSlots) (k : Nat) (name : LayerName) : Prop :=
  (∃ s, slots.idx[k]? = some (name, s)) ∨ slots.tailNames[k]? = some name

theorem not_tail_of_attn {g : KVCacheGroupSpec} (h : isAttnGroup g = true) : isTailGroup g = false := by
  simp [isTailGroup, h]

section
variable {g g₀ : KVCacheGroupSpec} {specs : LayerSpecs} (hwf : WellFormed given groups)
  (h : Recognized groups slots g specs) (hg₀ : g₀ ∈ groups)
include hwf h hg₀

theorem InMlaSlot.unique {k : Nat} (ha : InMlaSlot slots k a) (hb : InMlaSlot slots k b) (hag : a ∈ g₀.layerNames)
    (hbg : b ∈ g₀.layerNames) : a = b := by
  -- the group of a layer, with its place there
  have hgroup : ∀ {c}, InMlaSlot slots k c → c ∈ g₀.layerNames →
      (g₀ = g ∧ ∃ s, slots.mla[k]? = some (c, s)) ∨ ((∃ s, g₀.kvCacheSpec = .single s) ∧
        g₀.layerNames[k]? = some c) := by
    rintro c (⟨s, hs⟩ | ⟨e, he, hc⟩) hcg
    · have hin := (h.mla _ (mem_of_getElem? hs)).1
      exact .inl ⟨hwf.group_unique hg₀ h.mem hcg hin, s, hs⟩
    · obtain ⟨g', hg', hnames, hspec, -⟩ := h.mamba e he
      rw [← hnames] at hc
      obtain rfl := hwf.group_unique hg₀ hg' hcg (mem_of_getElem? hc)
      exact .inr ⟨⟨e.2, hspec⟩, hc⟩
  have hnot : ∀ {s}, g₀ = g → g₀.kvCacheSpec ≠ .single s := by
    rintro s rfl hspec
    obtain ⟨b, hb⟩ := h.spec
    cases hspec.symm.trans hb
  rcases hgroup ha hag with ⟨heq, s, hs⟩ | ⟨⟨s, hs⟩, hk⟩
  · rcases hgroup hb hbg with ⟨-, s', hs'⟩ | ⟨⟨s', hs'⟩, -⟩
    · exact congrArg Prod.fst (some.inj (hs.symm.trans hs'))
    · exact absurd hs' (hnot heq)
  · rcases hgroup hb hbg with ⟨heq, -⟩ | ⟨-, hk'⟩
    · exact absurd hs (hnot heq)
    · exact some.inj (hk.symm.trans hk')

theorem InIdxSlot.unique {k : Nat} (ha : InIdxSlot slots k a) (hb : InIdxSlot slots k b) (hag : a ∈ g₀.layerNames)
    (hbg : b ∈ g₀.layerNames) : a = b := by
  have hgroup : ∀ {c}, InIdxSlot slots k c → c ∈ g₀.layerNames →
      (isTailGroup g₀ = false ∧ ∃ s, slots.idx[k]? = some (c, s)) ∨
      (isTailGroup g₀ = true ∧ slots.tailNames[k]? = some c) := by
    rintro c (⟨s, hs⟩ | hc) hcg
    · have hin := (h.idx _ (mem_of_getElem? hs)).1
      obtain rfl := hwf.group_unique hg₀ h.mem hcg hin
      exact .inl ⟨not_tail_of_attn h.attn, s, hs⟩
    · rcases h.tails with hnil | ⟨g', hg', htail, hnames⟩
      · rw [hnil] at hc
        cases hc
      · have hin : c ∈ g'.layerNames := hnames ▸ mem_of_getElem? hc
        obtain rfl := hwf.group_unique hg₀ hg' hcg hin
        exact .inr ⟨htail, hc⟩
  rcases hgroup ha hag with ⟨hno, s, hs⟩ | ⟨hyes, hk⟩
  · rcases hgroup hb hbg with ⟨-, s', hs'⟩ | ⟨hyes, -⟩
    · exact congrArg Prod.fst (some.inj (hs.symm.trans hs'))
    · cases hno.symm.trans hyes
  · rcases hgroup hb hbg with ⟨hno, -⟩ | ⟨-, hk'⟩
    · cases hno.symm.trans hyes
    · exact some.inj (hk.symm.trans hk')

end

/-! ### Tensors over the slots -/

section Tensors
variable {layout : KVCacheLayout} {override : Option Nat} {available size nb : Nat} {t : KVCacheTensor}
  {config : KVCacheConfig} {g : KVCacheGroupSpec} {specs : LayerSpecs}

/-- A tensor over a slot of `page` bytes per block that starts at `offset`. -/
structure OverSlot (groups : List KVCacheGroupSpec) (size nb page offset : Nat) (name : LayerName) (t : KVCacheTensor) :
    Prop where
  spec : ∃ s, specOf groups name = some s ∧ s.pageSize = page ∧ addTensor size nb name s offset = .ok t

variable (hwf : WellFormed given groups)
include hwf

theorem mlaSlot_ok (h : Recognized groups slots g specs) (he : slots.mla[e.2]? = some e.1)
    (hts : mlaSlot slots size nb e = .ok ts) (ht : t ∈ ts) :
    ∃ name, InMlaSlot slots e.2 name ∧ OverSlot groups size nb slots.mlaPage (e.2 * slots.mlaPage * nb) name t := by
  simp only [mlaSlot, do_eq_ok] at hts
  obtain ⟨attn, hattn, mamba, hmamba, rfl⟩ := hts
  rcases mem_cons.1 ht with rfl | ht
  · obtain ⟨hin, hlook, hpage, -⟩ := h.mla e.1 (mem_of_getElem? he)
    obtain ⟨b, hspec⟩ := h.spec
    refine ⟨e.1.1, .inl ⟨e.1.2, he⟩, e.1.2, ?_, hpage, hattn⟩
    rw [specOf_eq hwf h.mem hin, KVCacheGroupSpec.perLayerSpec, hspec]
    exact hlook
  · obtain ⟨m, hm, hadd⟩ := (mapM_eq_ok.1 hmamba).exists_left ht
    obtain ⟨d, hd, hsome⟩ := mem_filterMap.1 hm
    obtain ⟨name, hname, rfl⟩ := map_eq_some_iff.1 hsome
    obtain ⟨g', hg', hnames, hspec, hpage⟩ := h.mamba d hd
    refine ⟨name, .inr ⟨d, hd, hname⟩, d.2, ?_, hpage, hadd⟩
    rw [specOf_eq hwf hg' (hnames ▸ mem_of_getElem? hname), KVCacheGroupSpec.perLayerSpec, hspec]

omit hwf in
theorem tailSpec_ok (h : tailSpec groups name = .ok s) : specOf groups name = some s := by
  unfold tailSpec at h
  unfold specOf
  cases hfind : groups.find? fun g => decide (name ∈ g.layerNames) with
  | none =>
    rw [hfind] at h
    cases h
  | some g =>
    rw [hfind] at h
    rw [Option.bind_some, KVCacheGroupSpec.perLayerSpec]
    cases hs : g.kvCacheSpec with
    | single s' =>
      simp [uniformSpecs?, hs] at h
    | uniformType b specs =>
      simp only [map_some, uniformSpecs?, hs] at h
      exact getSpec_eq_ok.1 h

theorem idxSlot_ok (hslots : sharedSlots groups = .ok (some slots)) (h : Recognized groups slots g specs)
    (he : slots.idx[e.2]? = some e.1) (hts : idxSlot groups slots size nb e = .ok ts) (ht : t ∈ ts) :
    ∃ name, InIdxSlot slots e.2 name ∧ OverSlot groups size nb slots.idxPage
      (slots.mla.length * slots.mlaPage * nb + e.2 * slots.idxPage * nb) name t := by
  simp only [idxSlot, bind_eq_ok] at hts
  obtain ⟨idx, hidx, hts⟩ := hts
  have hfirst : ∃ name, InIdxSlot slots e.2 name ∧ OverSlot groups size nb slots.idxPage
      (slots.mla.length * slots.mlaPage * nb + e.2 * slots.idxPage * nb) name idx := by
    obtain ⟨hin, hlook, hpage, -⟩ := h.idx e.1 (mem_of_getElem? he)
    obtain ⟨b, hspec⟩ := h.spec
    refine ⟨e.1.1, .inl ⟨e.1.2, he⟩, e.1.2, ?_, hpage, hidx⟩
    rw [specOf_eq hwf h.mem hin, KVCacheGroupSpec.perLayerSpec, hspec]
    exact hlook
  split_ifs at hts with hnil
  · obtain rfl := pure_eq_ok.1 hts
    rw [mem_singleton.1 ht]
    exact hfirst
  · split at hts
    · cases hts
    · next tailName htail =>
      simp only [do_eq_ok] at hts
      obtain ⟨s, hs, tail, hadd, rfl⟩ := hts
      rcases mem_cons.1 ht with rfl | ht
      · exact hfirst
      · rw [mem_singleton.1 ht]
        exact ⟨tailName, .inr htail, s, tailSpec_ok hs,
          hwf.tails slots hslots tailName (mem_of_getElem? htail) s hs, hadd⟩

theorem sharedSlotConfig_ok (hslots : sharedSlots groups = .ok (some slots)) (h : Recognized groups slots g specs)
    (hconfig : sharedSlotConfig override groups available slots = .ok config) :
    config.kvCacheGroups = groups ∧ slots.mla.length * slots.mlaPage + slots.idx.length * slots.idxPage ≠ 0 ∧
      ∀ t ∈ config.kvCacheTensors, ∃ k name offset page,
        OverSlot groups ((slots.mla.length * slots.mlaPage + slots.idx.length * slots.idxPage) * config.numBlocks)
          config.numBlocks page offset name t ∧
        ((k < slots.mla.length ∧ InMlaSlot slots k name ∧ page = slots.mlaPage ∧
          offset = k * slots.mlaPage * config.numBlocks) ∨
          (k < slots.idx.length ∧ InIdxSlot slots k name ∧ page = slots.idxPage ∧
            offset = slots.mla.length * slots.mlaPage * config.numBlocks + k * slots.idxPage * config.numBlocks)) := by
  simp only [sharedSlotConfig, numBlocksFor, do_eq_ok] at hconfig
  obtain ⟨nb, ⟨-, hbytes, -⟩, mla, hmla, idx, hidx, rfl⟩ := hconfig
  refine ⟨rfl, hbytes, fun t ht => ?_⟩
  rcases mem_append.1 ht with ht | ht
  · obtain ⟨ts, hts, ht⟩ := mem_flatten.1 ht
    obtain ⟨e, he, hslot⟩ := (mapM_eq_ok.1 hmla).exists_left hts
    have hget := mem_zipIdx_iff_getElem?.1 he
    obtain ⟨name, hin, hover⟩ := mlaSlot_ok hwf h hget hslot ht
    exact ⟨e.2, name, _, _, hover, .inl ⟨(List.getElem?_eq_some_iff.1 hget).1, hin, rfl, rfl⟩⟩
  · obtain ⟨ts, hts, ht⟩ := mem_flatten.1 ht
    obtain ⟨e, he, hslot⟩ := (mapM_eq_ok.1 hidx).exists_left hts
    have hget := mem_zipIdx_iff_getElem?.1 he
    obtain ⟨name, hin, hover⟩ := idxSlot_ok hwf hslots h hget hslot ht
    exact ⟨e.2, name, _, _, hover, .inr ⟨(List.getElem?_eq_some_iff.1 hget).1, hin, rfl, rfl⟩⟩

omit hwf in
theorem OverSlot.address {page offset : Nat} {first : LayerName} {st : Axis → Nat} {l i x n c : Nat}
    (hc : layout.isBlockCompact = true) (h : OverSlot groups size nb page offset name t)
    (hfirst : t.layers.head? = some first) (hspec : specOf groups first = some s)
    (hview : t.viewStrides s nb layout = .ok st) (hl : t.layers[l]? = some a) (hx : x < s.numHeads)
    (hn : n < s.numStates) (hcc : c < s.stateContentSizeBytes) :
    a = name ∧ t.size = size ∧ ∃ q < page, t.offset + l * st .L + i * st .B + (x * st .H + n * st .N + c * st .C) =
      offset + i * page + q := by
  obtain ⟨s', hs', rfl, hadd⟩ := h.spec
  simp only [addTensor, do_eq_ok] at hadd
  obtain ⟨page, hpage, rfl⟩ := hadd
  obtain ⟨hsound, rfl⟩ := sound_of_pageSizeBytes hpage
  obtain rfl := some.inj hfirst
  obtain rfl := some.inj (hspec.symm.trans hs')
  obtain ⟨hl0, rfl⟩ : l = 0 ∧ name = a := by
    cases l with
    | zero => exact ⟨rfl, some.inj hl⟩
    | succ l => cases hl
  have hst := (computeLayoutStrides_ok hview).1
  have hlt := inner_lt_of_compact hc hst hx hn hcc
  refine ⟨rfl, rfl, _, hlt.trans_le (real_le_pageSize hsound), ?_⟩
  have hB : st .B = s.pageSize := hst ▸ (stridesOf_fixed s nb 1 layout _ _).2
  rw [hl0, Nat.zero_mul, Nat.add_zero, hB]

theorem addresses_slot (hslots : sharedSlots groups = .ok (some slots)) (h : Recognized groups slots g specs)
    (hc : layout.isBlockCompact = true) (hconfig : sharedSlotConfig override groups available slots = .ok config)
    {i byte : Nat} (ha : Addresses config layout a i byte) :
    i < config.numBlocks ∧ ∃ k q, (k < slots.mla.length ∧ InMlaSlot slots k a ∧ q < slots.mlaPage ∧
        byte = (k * config.numBlocks + i) * slots.mlaPage + q) ∨
      (k < slots.idx.length ∧ InIdxSlot slots k a ∧ q < slots.idxPage ∧
        byte = slots.mla.length * config.numBlocks * slots.mlaPage +
          ((k * config.numBlocks + i) * slots.idxPage + q)) := by
  obtain ⟨hgroups, -, htensors⟩ := sharedSlotConfig_ok hwf hslots h hconfig
  obtain ⟨t, ht, first, s, st, l, hfirst, hspec, hview, hl, hb, x, hx, n, hn, c, hcc, rfl⟩ := ha
  rw [hgroups] at hspec
  obtain ⟨k, name, offset, page, hover, hcase⟩ := htensors t ht
  obtain ⟨rfl, -, q, hq, hbyte⟩ := hover.address hc hfirst hspec hview hl hx hn hcc (i := i)
  refine ⟨hb, k, q, ?_⟩
  rw [hbyte]
  rcases hcase with ⟨hk, hin, rfl, rfl⟩ | ⟨hk, hin, rfl, rfl⟩
  · exact .inl ⟨hk, hin, hq, by ring⟩
  · exact .inr ⟨hk, hin, hq, by ring⟩

/-- A plan with shared slots: a byte belongs to one block, and in a group to one layer. -/
theorem slots_noOverlap (hslots : sharedSlots groups = .ok (some slots))
    (hlayout : resolveKvCacheLayout req given = .ok layout)
    (hconfig : sharedSlotConfig override groups available slots = .ok config) {i j byte : Nat}
    (ha : Addresses config layout a i byte) (hb : Addresses config layout b j byte) :
    i = j ∧ (∀ g ∈ groups, a ∈ g.layerNames → b ∈ g.layerNames → a = b) ∧ ∀ t ∈ config.kvCacheTensors,
    byte < t.size := by
  obtain ⟨g, specs, hrec⟩ := sharedSlots_ok hslots
  obtain ⟨-, hbytes, htensors⟩ := sharedSlotConfig_ok hwf hslots hrec hconfig
  have hc := hrec.isBlockCompact hwf hslots hlayout hbytes
  obtain ⟨hi, k, q, hcase⟩ := addresses_slot hwf hslots hrec hc hconfig ha
  obtain ⟨hj, k', q', hcase'⟩ := addresses_slot hwf hslots hrec hc hconfig hb
  -- the latent-attention slots end where those of the indexer begin
  have hmla : ∀ {k i q}, k < slots.mla.length → i < config.numBlocks → q < slots.mlaPage →
      (k * config.numBlocks + i) * slots.mlaPage + q < slots.mla.length * config.numBlocks * slots.mlaPage :=
    fun hk hi hq => digits_lt (digits_lt hk hi) hq
  have hidx : ∀ {k i q}, k < slots.idx.length → i < config.numBlocks → q < slots.idxPage →
      (k * config.numBlocks + i) * slots.idxPage + q < slots.idx.length * config.numBlocks * slots.idxPage :=
    fun hk hi hq => digits_lt (digits_lt hk hi) hq
  refine (and_assoc (a := i = j)).1 ⟨?_, fun t ht => ?_⟩
  · rcases hcase with ⟨hk, hin, hq, rfl⟩ | ⟨hk, hin, hq, rfl⟩
    · rcases hcase' with ⟨hk', hin', hq', heq⟩ | ⟨hk', hin', hq', heq⟩
      · obtain ⟨hcell, -⟩ := digits_inj hq hq' heq
        obtain ⟨rfl, rfl⟩ := digits_inj hi hj hcell
        exact ⟨rfl, fun g₀ hg₀ => hin.unique hwf hrec hg₀ hin'⟩
      · have := hmla hk hi hq
        omega
    · rcases hcase' with ⟨hk', hin', hq', heq⟩ | ⟨hk', hin', hq', heq⟩
      · have := hmla hk' hj hq'
        omega
      · obtain ⟨hcell, -⟩ := digits_inj hq hq' (Nat.add_left_cancel heq)
        obtain ⟨rfl, rfl⟩ := digits_inj hi hj hcell
        exact ⟨rfl, fun g₀ hg₀ => hin.unique hwf hrec hg₀ hin'⟩
  · obtain ⟨_, _, _, _, hover, -⟩ := htensors t ht
    obtain ⟨s, -, -, hadd⟩ := hover.spec
    simp only [addTensor, do_eq_ok] at hadd
    obtain ⟨page, -, rfl⟩ := hadd
    have hsize : (slots.mla.length * slots.mlaPage + slots.idx.length * slots.idxPage) * config.numBlocks =
        slots.mla.length * config.numBlocks * slots.mlaPage + slots.idx.length * config.numBlocks *
          slots.idxPage := by ring
    simp only [hsize]
    rcases hcase with ⟨hk, -, hq, rfl⟩ | ⟨hk, -, hq, rfl⟩
    · have := hmla hk hi hq
      omega
    · have := hidx hk hi hq
      omega

omit hwf in
/-- The plan has no overlap: a byte that the views of two layers address is in one block, and the two layers
are one if a group has them both; and the byte is inside the allocation. -/
theorem kvCacheLayout_noOverlap {req : LayoutRequest} (hwf : WellFormed given groups)
    (hlayout : resolveKvCacheLayout req given = .ok layout)
    (hconfig : getKvCacheConfigFromGroups layout override groups available = .ok config) {a b : LayerName}
      {i j byte : Nat}
    (ha : Addresses config layout a i byte) (hb : Addresses config layout b j byte) :
    i = j ∧ (∀ g ∈ groups, a ∈ g.layerNames → b ∈ g.layerNames → a = b) ∧ ∀ t ∈ config.kvCacheTensors,
    byte < t.size := by
  unfold getKvCacheConfigFromGroups at hconfig
  split_ifs at hconfig with hnil
  · cases hconfig
    obtain ⟨t, ht, -⟩ := ha
    cases ht
  · rw [bind_eq_ok] at hconfig
    obtain ⟨found, hfound, hconfig⟩ := hconfig
    cases found with
    | none => exact regions_noOverlap hwf hlayout hconfig ha hb
    | some slots => exact slots_noOverlap hwf hfound hlayout hconfig ha hb

end Tensors

def latentFields (headSize : Nat) : AttentionSpec :=
  { blockSize := 16, numKvHeads := 1, headSize, headSizeV := 0, dtype := ⟨"uint8", 1⟩ }

/-- Latent attention with its indexer, a Mamba layer in the slot of the first and a scratch tail of 16 bytes,
padded or not, in the slot of the second. -/
def latentGroups (tailPadded : Option Nat) : List KVCacheGroupSpec :=
  [{ layerNames := [0, 1]
     kvCacheSpec := .uniformType 16 [
       (0, .attention { fields := latentFields 4, cls := .mla {} {}, noV := fun _ => rfl }),
       (1, .attention {
         fields := { latentFields 8 with tokensPerState := ⟨4, 1, Nat.succ_pos 3, Nat.one_pos⟩ }
         cls := .mla {} {}
         noV := fun _ => rfl })] },
   { layerNames := [2]
     kvCacheSpec := .single (.mamba { blockSize := 16, shapes := [[64]], dtypes := [⟨"uint8", 1⟩] }) },
   { layerNames := [3]
     kvCacheSpec := .uniformType 16 [(3, .attention {
       fields := { latentFields 1 with pageSizePadded := tailPadded }
       cls := .kpoolTail ⟨4, 0⟩
       noV := fun _ => rfl })] }]

theorem latentGroups_wellFormed :
    WellFormed ((latentGroups (some 32)).flatMap layerSpecs) (latentGroups (some 32)) := by
  refine ⟨by decide, ?_, fun g hg s hs => ⟨s, mem_flatMap.2 ⟨g, hg, hs⟩, rfl⟩, ?_, ?_⟩
  · simp only [latentGroups, forall_mem_cons]
    refine ⟨?_, by simp, ?_, by simp⟩
    all_goals
      intro b specs hspec _
      cases hspec
      exact ⟨rfl, by decide⟩
  · intro slots hslots
    obtain rfl := some.inj (Except.ok.inj hslots)
    decide
  · intro slots hslots name hname s hs
    obtain rfl := some.inj (Except.ok.inj hslots)
    obtain rfl := mem_singleton.1 hname
    obtain rfl := Except.ok.inj hs
    rfl

/-- With the padded tail a byte of the indexer's slot is in one block of the indexer and the same block of
the tail, which are in different groups. -/
theorem kvCacheLayout_noOverlap_latentGroups : ∃ config,
    getKvCacheConfigFromGroups .LBNHC none (latentGroups (some 32)) 384 = .ok config ∧
      Addresses config .LBNHC 1 1 288 ∧ Addresses config .LBNHC 3 1 288 ∧
      ∀ b j, Addresses config .LBNHC b j 288 → 1 = j ∧
        (∀ g ∈ latentGroups (some 32), 1 ∈ g.layerNames → b ∈ g.layerNames → 1 = b) ∧
        ∀ t ∈ config.kvCacheTensors, 288 < t.size := by
  have haddr : ∃ config, getKvCacheConfigFromGroups .LBNHC none (latentGroups (some 32)) 384 = .ok config ∧
      Addresses config .LBNHC 1 1 288 ∧ Addresses config .LBNHC 3 1 288 :=
    ⟨_, rfl,
      ⟨_, mem_of_getElem? (i := 2) rfl, 1, _, _, 0, rfl, rfl, rfl, rfl, by decide, 0, by decide, 0, by decide, 0,
        by decide, rfl⟩,
      ⟨_, mem_of_getElem? (i := 3) rfl, 3, _, _, 0, rfl, rfl, rfl, rfl, by decide, 0, by decide, 0, by decide, 0,
        by decide, rfl⟩⟩
  obtain ⟨config, hconfig, hidx, htail⟩ := haddr
  have hlayout : resolveKvCacheLayout { supportedLayouts := [[.LBNHC]] }
      ((latentGroups (some 32)).flatMap layerSpecs) = .ok .LBNHC := rfl
  exact ⟨config, hconfig, hidx, htail, fun b j hb =>
    kvCacheLayout_noOverlap latentGroups_wellFormed hlayout hconfig hidx hb⟩

/-- Without the padding the blocks of the tail are closer together than those of the indexer: block 2 of the
one starts where block 1 of the other does. -/
theorem unpadded_tail_overlaps : ∃ config,
    resolveKvCacheLayout { supportedLayouts := [[.LBNHC]] } ((latentGroups none).flatMap layerSpecs) =
      .ok .LBNHC ∧
    getKvCacheConfigFromGroups .LBNHC none (latentGroups none) 384 = .ok config ∧
      Addresses config .LBNHC 1 1 288 ∧ Addresses config .LBNHC 3 2 288 :=
  ⟨_, rfl, rfl,
    ⟨_, mem_of_getElem? (i := 2) rfl, 1, _, _, 0, rfl, rfl, rfl, rfl, by decide, 0, by decide, 0, by decide, 0,
      by decide, rfl⟩,
    ⟨_, mem_of_getElem? (i := 3) rfl, 3, _, _, 0, rfl, rfl, rfl, rfl, by decide, 0, by decide, 0, by decide, 0,
      by decide, rfl⟩⟩

end VllmCore.MemoryPlan
