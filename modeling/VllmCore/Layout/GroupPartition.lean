import VllmCore.Layout.MergeSpecs

/-! # Grouping is a partition of the layers

Every strategy of `get_kv_cache_groups` deals the layers out to non-empty groups and keeps each layer's
page size and grouping class as the unification left them, with two exceptions, which make up the
condition `KeepsAllLayers`:
* a state bucket of the packed strategy with unequal layer counts per page size is split although such
  buckets are to be emitted whole, and what the shortest count leaves over is in no group;
* latent sliding-window specs of different page sizes are merged into one. -/

namespace VllmCore.Grouping
open Except List Option Dict
variable {cfg : GroupingConfig} {names mlaNames : List LayerName} {name : LayerName} {buckets : List LayerSpecs}
  {s : LayerSpec} {bs bs' : List MergeBucket} {b p a : Nat} {specs unified : LayerSpecs}
  {groups groups' gs : List KVCacheGroupSpec} {g g' : KVCacheGroupSpec} {spec : GroupSpec}

structure IsPartition (names : List LayerName) (groups : List KVCacheGroupSpec) : Prop where
  perm : (groups.flatMap KVCacheGroupSpec.layerNames).Perm names
  nonempty : ∀ g ∈ groups, g.layerNames ≠ []

/-- The group's layers have the page sizes and grouping classes of `specs`. -/
def KeepsSpecs (specs : LayerSpecs) (g : KVCacheGroupSpec) : Prop :=
  ∀ name ∈ g.layerNames, ∃ s t, (name, s) ∈ specs ∧ g.perLayerSpec name = some t ∧
    t.pageSize = s.pageSize ∧ t.uniformTypeBase = s.uniformTypeBase

/-! ### Groups built by the strategies -/

theorem mem_of_lookup (h : specs.lookup name = some s) : (name, s) ∈ specs := by
  induction specs with
  | nil => cases h
  | cons e specs ih =>
    rw [lookup_cons_ite] at h
    split_ifs at h with he
    · obtain rfl := some.inj h
      exact he ▸ mem_cons_self ..
    · exact mem_cons_of_mem _ (ih h)

theorem lookup_of_mem (h : name ∈ specs.map Prod.fst) : ∃ s, specs.lookup name = some s := by
  induction specs with
  | nil => cases h
  | cons e specs ih =>
    rw [lookup_cons_ite]
    split_ifs with he
    · exact ⟨e.2, rfl⟩
    · rcases mem_cons.1 h with h | h
      · exact absurd h he
      · exact ih h

theorem getSpec_ok (h : getSpec specs name = .ok s) : (name, s) ∈ specs := by
  unfold getSpec at h
  split at h
  · next hl =>
    cases h
    exact mem_of_lookup hl
  · cases h

theorem fromSpecs_ok (h : GroupSpec.fromSpecs specs = .ok (some spec)) :
    specs ≠ [] ∧ ∃ b, spec = .uniformType b specs := by
  simp only [GroupSpec.fromSpecs, bind_eq_ok] at h
  obtain ⟨whole, hwhole, h⟩ := h
  cases whole with
  | false => cases h
  | true =>
    cases specs with
    | nil => cases h
    | cons e specs =>
      cases h
      exact ⟨by simp, _, rfl⟩

theorem keepsSpecs_uniformType {specs' : LayerSpecs} {e : Bool} (h : ∀ x ∈ specs', x ∈ specs) :
    KeepsSpecs specs ⟨specs'.map Prod.fst, .uniformType b specs', e⟩ := by
  intro name hname
  obtain ⟨s, hs⟩ := lookup_of_mem hname
  exact ⟨s, s, h _ (mem_of_lookup hs), hs, rfl, rfl⟩

theorem KeepsSpecs.mono {specs' : LayerSpecs} (h : KeepsSpecs specs g)
    (hsub : ∀ e ∈ specs, e ∈ specs') : KeepsSpecs specs' g := by
  intro name hname
  obtain ⟨s, t, hs, ht, hp, hb⟩ := h name hname
  exact ⟨s, t, hsub _ hs, ht, hp, hb⟩

structure MergedGroup (specs : LayerSpecs) (g : KVCacheGroupSpec) : Prop where
  merged : ∃ t members, g.kvCacheSpec = .single t ∧ members ≠ [] ∧
    List.Forall₂ (fun name s => (name, s) ∈ specs) g.layerNames members ∧ LayerSpec.Merged members t

namespace MergedGroup

theorem nonempty (h : MergedGroup specs g) : g.layerNames ≠ [] := by
  obtain ⟨t, members, -, hne, hmem, -⟩ := h
  intro hnil
  rw [hnil] at hmem
  cases hmem
  exact hne rfl

theorem keepsSpecs (h : MergedGroup specs g) (hp : ∀ e ∈ specs, e.2.pageSize = p) : KeepsSpecs specs g := by
  obtain ⟨t, members, hspec, hne, hmem, hmerged⟩ := h
  have hpage : t.pageSize = p := by
    cases members with
    | nil => exact absurd rfl hne
    | cons first members =>
      obtain ⟨name, -, hfirst⟩ := hmem.exists_left (mem_cons_self ..)
      rw [hmerged.page first rfl, hp _ hfirst]
  intro name hname
  obtain ⟨s, hs, hin⟩ := hmem.exists_right hname
  refine ⟨s, t, hin, ?_, hpage.trans (hp _ hin).symm, hmerged.base s hs⟩
  rw [KVCacheGroupSpec.perLayerSpec, hspec]

end MergedGroup

theorem createKvCacheGroupSpec_ok
    (h : createKvCacheGroupSpec specs names = .ok g) : g.layerNames = names ∧ MergedGroup specs g := by
  rw [createKvCacheGroupSpec, bind_eq_ok] at h
  obtain ⟨members, hmem, h⟩ := h
  cases members with
  | nil => cases h
  | cons first rest =>
    simp only [do_eq_ok] at h
    obtain ⟨t, ht, rfl⟩ := h
    exact ⟨rfl, t, first :: rest, rfl, by simp, (mapM_eq_ok.1 hmem).imp fun _ _ => getSpec_ok,
      LayerSpec.merge_merged ht⟩

theorem map_layerNames_of_mapM {α : Type} {f : α → Except Err KVCacheGroupSpec} (names : α → List LayerName)
    {l : List α} (hf : ∀ a g, f a = .ok g → g.layerNames = names a)
    (h : l.mapM f = .ok groups) : groups.map KVCacheGroupSpec.layerNames = l.map names := by
  refine forall₂_eq_eq_eq ▸ ?_
  rw [forall₂_map_left_iff, forall₂_map_right_iff]
  exact (mapM_eq_ok.1 h).flip.imp fun g a hg => hf a g hg

theorem createKvCacheGroupSpecs_ok {grouped : List (List LayerName)}
    (h : createKvCacheGroupSpecs specs grouped = .ok groups) :
    groups.map KVCacheGroupSpec.layerNames = grouped ∧ ∀ g ∈ groups, MergedGroup specs g := by
  constructor
  · simpa using map_layerNames_of_mapM (fun names => names)
      (fun names g hg => (createKvCacheGroupSpec_ok hg).1) h
  · intro g hg
    obtain ⟨names, -, hnames⟩ := (mapM_eq_ok.1 h).exists_left hg
    exact (createKvCacheGroupSpec_ok hnames).2

/-! ### Groups of one page size -/

theorem addToBuckets_ok (h : addToBuckets s names bs = .ok bs') :
    (bs'.flatMap MergeBucket.names).Perm (bs.flatMap MergeBucket.names ++ names) ∧
      ((∀ b ∈ bs, b.names ≠ []) → names ≠ [] → ∀ b ∈ bs', b.names ≠ []) := by
  induction bs generalizing bs' with
  | nil =>
    cases h
    exact ⟨by simp, fun _ hne b hb => by rwa [mem_singleton.1 hb]⟩
  | cons b bs ih =>
    have hskip : (do
        let bs ← addToBuckets s names bs
        pure (b :: bs)) = .ok bs' →
        (bs'.flatMap MergeBucket.names).Perm ((b :: bs).flatMap MergeBucket.names ++ names) ∧
          ((∀ d ∈ b :: bs, d.names ≠ []) → names ≠ [] → ∀ d ∈ bs', d.names ≠ []) := by
      intro hrest
      simp only [do_eq_ok] at hrest
      obtain ⟨bs'', hrest, rfl⟩ := hrest
      obtain ⟨hperm, hne⟩ := ih hrest
      refine ⟨by simpa using hperm.append_left b.names, fun hb hn => ?_⟩
      rw [forall_mem_cons] at hb ⊢
      exact ⟨hb.1, hne hb.2 hn⟩
    simp only [addToBuckets] at h
    split at h
    · cases h
    · split at h
      · cases h
        refine ⟨?_, fun hb hn => ?_⟩
        · simpa using (@perm_append_comm _ names _).append_left b.names
        · rw [forall_mem_cons] at hb ⊢
          exact ⟨by simp [hn], hb.2⟩
      · exact hskip h
      · exact hskip h
      · cases h

theorem foldlM_addToBuckets_ok {es : List (LayerSpec × List LayerName)}
    (h : es.foldlM (fun buckets e => addToBuckets e.1 e.2 buckets) bs = .ok bs') (hes : ∀ e ∈ es, e.2 ≠ [])
    (hbs : ∀ b ∈ bs, b.names ≠ []) :
    (bs'.flatMap MergeBucket.names).Perm (bs.flatMap MergeBucket.names ++ (es.map Prod.snd).flatten) ∧
      ∀ b ∈ bs', b.names ≠ [] := by
  induction es generalizing bs with
  | nil =>
    cases pure_eq_ok.1 h
    exact ⟨by simp, hbs⟩
  | cons e es ih =>
    rw [foldlM_cons, bind_eq_ok] at h
    obtain ⟨bs₁, h₁, h⟩ := h
    rw [forall_mem_cons] at hes
    obtain ⟨hperm₁, hne₁⟩ := addToBuckets_ok h₁
    obtain ⟨hperm, hne⟩ := ih h hes.2 (hne₁ hbs hes.1)
    refine ⟨hperm.trans ?_, hne⟩
    simpa using hperm₁.append_right (es.map Prod.snd).flatten

theorem cdiv_pos (ha : 0 < a) (hb : 0 < b) : 0 < cdiv a b :=
  Nat.div_pos (by omega) hb

theorem uniformGroupSize_pos {n : Nat} (h : uniformGroupSize bs = .ok n) (hne : ∀ b ∈ bs, b.names ≠ []) : 0 < n := by
  have hpos : ∀ m ∈ bs.map fun b => b.names.length, 0 < m := by
    intro m hm
    obtain ⟨b, hb, rfl⟩ := mem_map.1 hm
    exact length_pos_of_ne_nil (hne b hb)
  simp only [uniformGroupSize] at h
  split at h
  · next hmin hmax =>
    have := hpos _ (min?_mem hmin)
    have := hpos _ (max?_mem hmax)
    cases h
    split_ifs <;> assumption
  · cases h

theorem getKvCacheGroupsUniformPageSize_ok (h : getKvCacheGroupsUniformPageSize specs = .ok groups) :
    (groups.flatMap KVCacheGroupSpec.layerNames).Perm (specs.map Prod.fst) ∧ ∀ g ∈ groups, MergedGroup specs g := by
  simp only [getKvCacheGroupsUniformPageSize, bind_eq_ok] at h
  obtain ⟨buckets, hbuckets, size, hsize, h⟩ := h
  obtain ⟨hnames, hmerged⟩ := createKvCacheGroupSpecs_ok h
  refine ⟨?_, hmerged⟩
  obtain ⟨hperm, hne⟩ := foldlM_addToBuckets_ok hbuckets (groupBy_ne_nil _ _ specs) (by simp)
  have hsize := uniformGroupSize_pos hsize hne
  rw [flatMap_def, hnames, flatten_eq_flatMap, flatMap_assoc]
  refine (Perm.flatMap_left _ fun b hb => ?_).trans
    (hperm.trans (groupBy_flatten_perm Prod.snd Prod.fst specs))
  rw [← flatten_eq_flatMap, ← flatMap_def]
  exact b.names.flatMap_strided_perm (cdiv_pos (length_pos_of_ne_nil (hne b hb)) hsize)

/-! ### Packed groups -/

theorem addToUniformBuckets_ok {e : LayerName × LayerSpec} {bs bs' : List LayerSpecs}
    (h : addToUniformBuckets e bs = .ok bs') :
    bs'.flatten.Perm (bs.flatten ++ [e]) ∧ ((∀ b ∈ bs, b ≠ []) → ∀ b ∈ bs', b ≠ []) := by
  induction bs generalizing bs' with
  | nil =>
    cases h
    exact ⟨by simp, fun _ b hb => by simp [mem_singleton.1 hb]⟩
  | cons b bs ih =>
    simp only [addToUniformBuckets, bind_eq_ok] at h
    obtain ⟨whole, -, h⟩ := h
    cases whole with
    | true =>
      obtain rfl := pure_eq_ok.1 h
      refine ⟨?_, fun hb => ?_⟩
      · simpa using (@perm_append_comm _ [e] _).append_left b
      · rw [forall_mem_cons] at hb ⊢
        exact ⟨by simp, hb.2⟩
    | false =>
      rw [if_neg (by simp)] at h
      simp only [do_eq_ok] at h
      obtain ⟨bs'', hrest, rfl⟩ := h
      obtain ⟨hperm, hne⟩ := ih hrest
      refine ⟨by simpa using hperm.append_left b, fun hb => ?_⟩
      rw [forall_mem_cons] at hb ⊢
      exact ⟨hb.1, hne hb.2⟩

theorem uniformBuckets_ok (h : uniformBuckets specs = .ok buckets) :
    buckets.flatten.Perm specs ∧ ∀ b ∈ buckets, b ≠ [] := by
  suffices ∀ (bs : List LayerSpecs), (∀ b ∈ bs, b ≠ []) →
      specs.foldlM (fun buckets e => addToUniformBuckets e buckets) bs = .ok buckets →
      buckets.flatten.Perm (bs.flatten ++ specs) ∧ ∀ b ∈ buckets, b ≠ [] by
    simpa using this [] (by simp) h
  clear h
  induction specs with
  | nil =>
    intro bs hbs h
    cases pure_eq_ok.1 h
    exact ⟨by simp, hbs⟩
  | cons e specs ih =>
    intro bs hbs h
    rw [foldlM_cons, bind_eq_ok] at h
    obtain ⟨bs₁, h₁, h⟩ := h
    obtain ⟨hperm₁, hne₁⟩ := addToUniformBuckets_ok h₁
    obtain ⟨hperm, hne⟩ := ih bs₁ (hne₁ hbs) h
    exact ⟨hperm.trans (by simpa using hperm₁.append_right specs), hne⟩

theorem approximateGcd_pos {values : List Nat} {d : Nat} (h : approximateGcd values b = .ok d) : 0 < d := by
  simp only [approximateGcd, bind_eq_ok] at h
  obtain ⟨-, -, -, -, h⟩ := h
  split_ifs at h
  · cases pure_eq_ok.1 h
    omega
  · obtain rfl := pure_eq_ok.1 h
    -- the divisors tried start at `max 1 b`
    refine List.foldlRecOn (motive := fun best : Nat × Option Nat => 0 < best.1) _ _ (by simp) ?_
    intro best hbest c hc
    split_ifs
    · have := (mem_range'_1.1 hc).1
      simp only
      omega
    · exact hbest

theorem repeatsPerGroup_pos {r : Nat} (h : repeatsPerGroup buckets = .ok (some r)) : 0 < r := by
  simp only [repeatsPerGroup] at h
  split at h
  · cases h
  · simp only [do_eq_ok] at h
    obtain ⟨d, hd, h⟩ := h
    cases h
    exact approximateGcd_pos hd

section Bucket
variable {bucket : LayerSpecs}

theorem pageSizeLayers_perm (bucket : LayerSpecs) : (pageSizeLayers bucket).values.flatten.Perm (bucket.map Prod.fst) :=
  groupBy_flatten_perm _ _ bucket

theorem pageSizeLayers_ne_nil (h : bucket ≠ []) : (pageSizeLayers bucket).values ≠ [] := by
  intro hnil
  have := (pageSizeLayers_perm bucket).length_eq
  rw [hnil] at this
  exact h (length_eq_zero_iff.1 (by simpa using this.symm))

theorem getMaxLayersPerPageSize_pos (h : bucket ≠ []) : 0 < getMaxLayersPerPageSize bucket := by
  unfold getMaxLayersPerPageSize
  cases hmax : ((pageSizeLayers bucket).values.map List.length).max? with
  | none => exact absurd (map_eq_nil_iff.1 (max?_eq_none_iff.1 hmax)) (pageSizeLayers_ne_nil h)
  | some m =>
    obtain ⟨l, hl, rfl⟩ := mem_map.1 (max?_mem hmax)
    obtain ⟨e, he, rfl⟩ := mem_map.1 hl
    exact length_pos_of_ne_nil (groupBy_ne_nil _ _ bucket e he)

theorem length_of_balanced (h : balanced bucket = true) : ∃ k, ∀ l ∈ (pageSizeLayers bucket).values, l.length = k := by
  have h := of_decide_eq_true h
  obtain ⟨k, hk⟩ := length_eq_one_iff.1 h
  refine ⟨k, fun l hl => ?_⟩
  have := mem_dedup.2 (mem_map_of_mem (f := List.length) hl)
  rwa [hk, mem_singleton] at this

theorem lengths_of_not_balanced (hne : bucket ≠ []) (h : balanced bucket = false) :
    ∃ a ∈ (pageSizeLayers bucket).values, ∃ b ∈ (pageSizeLayers bucket).values, a.length ≠ b.length := by
  by_contra hall
  push Not at hall
  obtain ⟨a, ha⟩ := exists_mem_of_ne_nil _ (pageSizeLayers_ne_nil hne)
  refine absurd (of_decide_eq_false h) (not_not.2 ?_)
  have hsingle : ((pageSizeLayers bucket).values.map List.length) =
      List.replicate (pageSizeLayers bucket).values.length a.length :=
    eq_replicate_iff.2 ⟨by simp, by simpa using fun l hl => hall l hl a ha⟩
  rw [hsingle, replicate_dedup (by simpa using pageSizeLayers_ne_nil hne)]
  rfl

variable {repeats : Option Nat} {anchor n : Nat}

/-- The bucket is emitted whole, or all its layers are in the pattern that is dealt out: a state bucket with
unequal layer counts must fit the block. -/
def Fits (repeats : Option Nat) (anchor : Nat) (bucket : LayerSpecs) : Prop :=
  anchor ≠ 0 → balanced bucket = false → isStateBucket repeats bucket = true →
    ∀ first ∈ bucket.head?, bucket.length ≤ max (anchor / first.2.pageSize) 1

theorem numGroupsFor_pos (hne : bucket ≠ []) (hr : ∀ r ∈ repeats, 0 < r) : 0 < numGroupsFor repeats bucket := by
  unfold numGroupsFor
  split
  · split_ifs
    · exact cdiv_pos (getMaxLayersPerPageSize_pos hne) (hr _ rfl)
    · omega
  · omega

theorem numGroupsFor_of_not_balanced (h : balanced bucket = false) : numGroupsFor repeats bucket = 1 := by
  unfold numGroupsFor
  split
  · simp [h]
  · rfl

theorem cdiv_le_one (hb : 0 < b) : cdiv a b ≤ 1 ↔ a ≤ b := by
  unfold cdiv
  rw [← Nat.lt_succ_iff, Nat.div_lt_iff_lt_mul hb]
  omega

theorem numGroups_pos (hne : bucket ≠ []) (hr : ∀ r ∈ repeats, 0 < r) (h : numGroups repeats anchor bucket = .ok n) :
    0 < n := by
  have := numGroupsFor_pos hne hr
  unfold numGroups at h
  split_ifs at h
  · simp only [do_eq_ok] at h
    obtain ⟨states, -, rfl⟩ := h
    omega
  · cases h
    exact this

theorem fits_iff (hne : bucket ≠ []) (h : numGroups repeats anchor bucket = .ok n) :
    Fits repeats anchor bucket ↔ (balanced bucket = false → n = 1) := by
  obtain ⟨first, rest, rfl⟩ := exists_cons_of_ne_nil hne
  unfold numGroups at h
  by_cases hstate : anchor ≠ 0 ∧ isStateBucket repeats (first :: rest) = true
  · rw [if_pos hstate] at h
    simp only [do_eq_ok, statesPerBlock, head?_cons] at h
    obtain ⟨states, hstates, rfl⟩ := h
    split_ifs at hstates
    cases hstates
    have hcut := cdiv_le_one (a := (first :: rest).length) (b := max (anchor / first.2.pageSize) 1) (by omega)
    constructor
    · intro hfits hbal
      have := hcut.2 (hfits hstate.1 hbal hstate.2 first rfl)
      rw [numGroupsFor_of_not_balanced hbal]
      omega
    · intro hone _ hbal _ e he
      obtain rfl := some.inj he
      have := hone hbal
      exact hcut.1 (by omega)
  · rw [if_neg hstate] at h
    cases h
    exact ⟨fun _ hbal => numGroupsFor_of_not_balanced hbal, fun _ hanchor _ hs => absurd ⟨hanchor, hs⟩ hstate⟩

theorem createUniformGroup_ok (h : createUniformGroup bucket names = .ok g) :
    g.layerNames = names ∧ names ≠ [] ∧ KeepsSpecs bucket g := by
  simp only [createUniformGroup, bind_eq_ok] at h
  obtain ⟨specs, hspecs, spec, hspec, h⟩ := h
  have hspecs := mapM_eq_ok.1 hspecs
  simp only [do_eq_ok] at hspecs
  have hnames : specs.map Prod.fst = names := by
    refine forall₂_eq_eq_eq ▸ ?_
    rw [forall₂_map_left_iff]
    refine hspecs.flip.imp ?_
    rintro _ name ⟨s, -, rfl⟩
    rfl
  have hsub : ∀ e ∈ specs, e ∈ bucket := by
    intro e he
    obtain ⟨name, -, s, hs, rfl⟩ := hspecs.exists_left he
    exact getSpec_ok hs
  cases spec with
  | none => cases h
  | some spec =>
    obtain ⟨hne, b, rfl⟩ := fromSpecs_ok hspec
    cases h
    refine ⟨rfl, ?_, ?_⟩
    · rw [← hnames]
      simpa using hne
    · rw [← hnames]
      exact keepsSpecs_uniformType hsub

theorem splitBucket_ok (hne : bucket ≠ []) (hr : ∀ r ∈ repeats, 0 < r)
    (h : splitBucket repeats anchor bucket = .ok gs) :
    (∀ g ∈ gs, g.layerNames ≠ [] ∧ KeepsSpecs bucket g) ∧
      (Fits repeats anchor bucket → (gs.flatMap KVCacheGroupSpec.layerNames).Perm (bucket.map Prod.fst)) ∧
      (¬Fits repeats anchor bucket → (gs.flatMap KVCacheGroupSpec.layerNames).length < bucket.length) := by
  simp only [splitBucket, bind_eq_ok] at h
  obtain ⟨spec, hspec, h⟩ := h
  cases spec with
  | none => cases h
  | some spec =>
    simp only [bind_eq_ok] at h
    obtain ⟨n, hn, h⟩ := h
    rw [fits_iff hne hn]
    have hpos := numGroups_pos hne hr hn
    split_ifs at h with hone
    · cases pure_eq_ok.1 h
      obtain ⟨-, b, rfl⟩ := fromSpecs_ok hspec
      refine ⟨fun g hg => ?_, fun _ => by simp, fun hnot => absurd (fun _ => hone) hnot⟩
      rw [mem_singleton.1 hg]
      exact ⟨by simpa using hne, keepsSpecs_uniformType fun e he => he⟩
    · -- the groups hold what the rows of the pattern hold
      have hrows : (gs.flatMap KVCacheGroupSpec.layerNames).Perm
          (List.zipAll (pageSizeLayers bucket).values).flatten := by
        have hnames := map_layerNames_of_mapM _ (fun i g hg => (createUniformGroup_ok hg).1) h
        rw [flatMap_def, hnames, ← flatMap_def]
        have := (flatMap_strided_perm (List.zipAll (pageSizeLayers bucket).values) hpos).flatten
        rw [flatten_eq_flatMap, flatMap_assoc] at this
        simpa [← flatten_eq_flatMap] using this
      refine ⟨fun g hg => ?_, fun hbal => ?_, fun hnot => ?_⟩
      · obtain ⟨i, -, hi⟩ := (mapM_eq_ok.1 h).exists_left hg
        obtain ⟨hnames, hne, hkeeps⟩ := createUniformGroup_ok hi
        exact ⟨hnames ▸ hne, hkeeps⟩
      · have hbal : balanced bucket = true := by
          by_contra hb
          exact hone (hbal (by simpa using hb))
        obtain ⟨k, hk⟩ := length_of_balanced hbal
        exact hrows.trans ((zipAll_flatten_perm hk).trans (pageSizeLayers_perm bucket))
      · have hbal : balanced bucket = false := by
          by_contra hb
          exact hnot fun hb' => absurd hb' hb
        obtain ⟨a, ha, b, hb, hab⟩ := lengths_of_not_balanced hne hbal
        calc (gs.flatMap KVCacheGroupSpec.layerNames).length
            = (List.zipAll (pageSizeLayers bucket).values).flatten.length := hrows.length_eq
          _ < (pageSizeLayers bucket).values.flatten.length := zipAll_flatten_lt ha hb hab
          _ = bucket.length := by rw [(pageSizeLayers_perm bucket).length_eq, length_map]

theorem splitBuckets_perm_iff {gss : List (List KVCacheGroupSpec)} (hne : ∀ b ∈ buckets, b ≠ [])
    (hr : ∀ r ∈ repeats, 0 < r) (h : List.Forall₂ (fun b gs => splitBucket repeats anchor b = .ok gs) buckets gss) :
    (gss.flatten.flatMap KVCacheGroupSpec.layerNames).length ≤ buckets.flatten.length ∧
      ((gss.flatten.flatMap KVCacheGroupSpec.layerNames).Perm (buckets.flatten.map Prod.fst) ↔
        ∀ b ∈ buckets, Fits repeats anchor b) := by
  induction h with
  | nil => simp
  | @cons b gs buckets gss hb _ ih =>
    rw [forall_mem_cons] at hne
    obtain ⟨hle, hiff⟩ := ih hne.2
    obtain ⟨-, hfit, hlost⟩ := splitBucket_ok hne.1 hr hb
    have hle' : (gs.flatMap KVCacheGroupSpec.layerNames).length ≤ b.length := by
      by_cases hf : Fits repeats anchor b
      · simpa using (hfit hf).length_eq.le
      · exact (hlost hf).le
    simp only [flatten_cons, flatMap_append, length_append, map_append, forall_mem_cons]
    refine ⟨by omega, fun hperm => ?_, fun hall => (hfit hall.1).append (hiff.2 hall.2)⟩
    -- no bucket makes up for a layer that another one loses
    have hlen := hperm.length_eq
    simp only [length_append, length_map] at hlen
    have hf : Fits repeats anchor b := by
      by_contra hf
      have := hlost hf
      omega
    exact ⟨hf, hiff.1 ((perm_append_left_iff _).1 (((hfit hf).append_right _).symm.trans hperm))⟩

end Bucket

theorem packedGroups_ok (h : packedGroups specs = .ok groups) : (∀ g ∈ groups, g.layerNames ≠ [] ∧ KeepsSpecs specs g) ∧
      ∃ buckets repeats, uniformBuckets specs = .ok buckets ∧ repeatsPerGroup buckets = .ok repeats ∧
        ((groups.flatMap KVCacheGroupSpec.layerNames).Perm (specs.map Prod.fst) ↔
          ∀ b ∈ buckets, Fits repeats (anchorBytes repeats buckets) b) := by
  simp only [packedGroups, do_eq_ok] at h
  obtain ⟨buckets, hbuckets, repeats, hrepeats, gss, hgss, rfl⟩ := h
  have hgss := mapM_eq_ok.1 hgss
  obtain ⟨hperm, hne⟩ := uniformBuckets_ok hbuckets
  have hr : ∀ r ∈ repeats, 0 < r := by
    rintro r rfl
    exact repeatsPerGroup_pos hrepeats
  refine ⟨fun g hg => ?_, buckets, repeats, hbuckets, hrepeats, ?_⟩
  · obtain ⟨gs, hgs, hg⟩ := mem_flatten.1 hg
    obtain ⟨b, hb, hsplit⟩ := hgss.exists_left hgs
    obtain ⟨hne', hkeeps⟩ := (splitBucket_ok (hne b hb) hr hsplit).1 g hg
    exact ⟨hne', hkeeps.mono fun e he => hperm.mem_iff.1 (mem_flatten_of_mem hb he)⟩
  · rw [← (splitBuckets_perm_iff hne hr hgss).2]
    exact (hperm.map Prod.fst).symm.congr_right _

/-! ### Shared slots -/

theorem ppBalancedMambaGroupCount_pos {mamba mla : List LayerName} {n : Nat} (hmamba : mamba ≠ []) (hmla : mla ≠ [])
    (h : ppBalancedMambaGroupCount cfg mamba mla = some n) : 0 < n := by
  have hpos := cdiv_pos (length_pos_of_ne_nil hmamba) (length_pos_of_ne_nil hmla)
  unfold ppBalancedMambaGroupCount at h
  simp only at h
  split_ifs at h
  · obtain rfl := some.inj h
    exact hpos
  · generalize cdiv mamba.length mla.length = start at h hpos
    generalize cfg.ppStages = stages at h
    induction stages generalizing start with
    | nil =>
      obtain rfl := some.inj h
      exact hpos
    | cons stage stages ih =>
      rw [foldlM_cons] at h
      obtain ⟨next, hnext, h⟩ := bind_eq_some_iff.1 h
      refine ih next ?_ h
      split_ifs at hnext
      · obtain rfl := some.inj hnext
        exact hpos
      · obtain rfl := some.inj hnext
        omega

structure Grouped (specs unified : LayerSpecs) (groups : List KVCacheGroupSpec) : Prop where
  unifiedFrom : UnifiedFrom specs unified
  partition : IsPartition (specs.map Prod.fst) groups
  keeps : ∀ g ∈ groups, KeepsSpecs unified g

namespace Grouped
variable {specs' unified' : LayerSpecs}

theorem append (h : Grouped specs unified groups) (h' : Grouped specs' unified' groups') :
    Grouped (specs ++ specs') (unified ++ unified') (groups ++ groups') where
  unifiedFrom := h.unifiedFrom.append h'.unifiedFrom
  partition := by
    refine ⟨by simpa using h.partition.perm.append h'.partition.perm, fun g hg => ?_⟩
    rcases mem_append.1 hg with hg | hg
    · exact h.partition.nonempty g hg
    · exact h'.partition.nonempty g hg
  keeps g hg := by
    rcases mem_append.1 hg with hg | hg
    · exact (h.keeps g hg).mono fun e he => mem_append_left _ he
    · exact (h'.keeps g hg).mono fun e he => mem_append_right _ he

theorem trans (hu : UnifiedFrom specs specs') (h : Grouped specs' unified groups) : Grouped specs unified groups :=
  ⟨hu.trans h.unifiedFrom, ⟨h.partition.perm.trans hu.names, h.partition.nonempty⟩, h.keeps⟩

theorem of_fromSpecs {e : Bool} (h : GroupSpec.fromSpecs specs = .ok (some spec)) :
    Grouped specs specs [⟨specs.map Prod.fst, spec, e⟩] := by
  obtain ⟨hne, b, rfl⟩ := fromSpecs_ok h
  refine ⟨.refl _, ⟨by simp, fun g hg => ?_⟩, fun g hg => ?_⟩
  · rw [mem_singleton.1 hg]
    simpa using hne
  · rw [mem_singleton.1 hg]
    exact keepsSpecs_uniformType fun e he => he

theorem of_merged (hu : UnifiedFrom specs unified) (hp : ∀ e ∈ unified, e.2.pageSize = p)
    (hperm : (groups.flatMap KVCacheGroupSpec.layerNames).Perm (unified.map Prod.fst))
    (hmerged : ∀ g ∈ groups, MergedGroup unified g) : Grouped specs unified groups :=
  ⟨hu, ⟨hperm.trans hu.names, fun g hg => (hmerged g hg).nonempty⟩, fun g hg => (hmerged g hg).keepsSpecs hp⟩

theorem singletons (hu : UnifiedFrom specs unified) : Grouped specs unified (singletonGroups unified) := by
  refine ⟨hu, ⟨?_, fun g hg => ?_⟩, fun g hg => ?_⟩
  · have hnames : (singletonGroups unified).flatMap KVCacheGroupSpec.layerNames = unified.map Prod.fst := by
      rw [singletonGroups, flatMap_map]
      exact map_eq_flatMap.symm
    rw [hnames]
    exact hu.names
  · obtain ⟨e, -, rfl⟩ := mem_map.1 hg
    simp
  · obtain ⟨e, he, rfl⟩ := mem_map.1 hg
    intro name hname
    obtain rfl := mem_singleton.1 hname
    exact ⟨e.2, e.2, he, rfl, rfl, rfl⟩

end Grouped

theorem tailGroups_ok (h : tailGroups specs = .ok gs) : Grouped specs specs gs := by
  unfold tailGroups at h
  split_ifs at h with hnil
  · cases h
    rw [hnil]
    exact ⟨.refl _, ⟨.refl _, by simp⟩, by simp⟩
  · simp only [bind_eq_ok] at h
    obtain ⟨spec, hspec, h⟩ := h
    cases spec with
    | none => cases h
    | some spec =>
      cases h
      exact .of_fromSpecs hspec

theorem sharedSlotGroups_ok {attn tail mamba unified : LayerSpecs} {anyMamba : LayerSpec} {mlaPage : Nat}
    (hmamba : mamba ≠ []) (hmla : mlaNames ≠ [])
    (h : sharedSlotGroups cfg attn tail mamba anyMamba mlaNames mlaPage = .ok (unified, groups)) :
    Grouped (attn ++ (tail ++ mamba)) unified groups := by
  simp only [sharedSlotGroups, bind_eq_ok] at h
  obtain ⟨spec, hspec, h⟩ := h
  cases spec with
  | none => cases h
  | some spec =>
    simp only [bind_eq_ok, ensure_eq_ok] at h
    obtain ⟨tailGs, htail, -, hany, -, -, h⟩ := h
    cases hn : ppBalancedMambaGroupCount cfg (mamba.map Prod.fst) mlaNames with
    | none =>
      rw [hn] at h
      cases h
    | some n =>
      simp only [hn, do_eq_ok] at h
      obtain ⟨mambaGs, hcreate, h⟩ := h
      obtain ⟨rfl, rfl⟩ := Prod.mk.inj h
      obtain ⟨hnames, hmerged⟩ := createKvCacheGroupSpecs_ok hcreate
      have hpos := ppBalancedMambaGroupCount_pos (by simpa using hmamba) hmla hn
      have hmambaGs : Grouped mamba (mamba.map fun e => (e.1, anyMamba.withPageSizePadded mlaPage)) mambaGs := by
        refine .of_merged (p := (anyMamba.withPageSizePadded mlaPage).pageSize) (.of_map fun e he => ?_) ?_ ?_ hmerged
        · rw [hany e he]
          exact .single (.pageSizePadded _ _)
        · intro e he
          obtain ⟨d, -, rfl⟩ := mem_map.1 he
          rfl
        · rw [flatMap_def, hnames, ← flatMap_def, List.map_map]
          exact flatMap_strided_perm (mamba.map Prod.fst) hpos
      exact (Grouped.of_fromSpecs hspec).append ((tailGroups_ok htail).append hmambaGs)

theorem partsOf_perm (specs : LayerSpecs) :
    (specs.filter (fun e => !e.2.isMamba && !e.2.isKpoolTail) ++ (specs.filter (fun e => e.2.isKpoolTail) ++
      specs.filter fun e => e.2.isMamba)).Perm specs := by
  have htail : (specs.filter fun e => !e.2.isMamba).filter (fun e => e.2.isKpoolTail) =
      specs.filter fun e => e.2.isKpoolTail := by
    rw [List.filter_filter]
    refine filter_congr fun e _ => ?_
    cases e.2 with
    | mamba m => rfl
    | attention a => simp [LayerSpec.isMamba]
  have hattn : (specs.filter fun e => !e.2.isMamba).filter (fun e => !e.2.isKpoolTail) =
      specs.filter fun e => !e.2.isMamba && !e.2.isKpoolTail := by
    rw [List.filter_filter]
    exact filter_congr fun e _ => Bool.and_comm ..
  have hmamba := filter_append_perm (fun e : LayerName × LayerSpec => e.2.isMamba) specs
  have hrest := filter_append_perm (fun e : LayerName × LayerSpec => e.2.isKpoolTail)
    (specs.filter fun e => !e.2.isMamba)
  rw [htail, hattn] at hrest
  rw [← append_assoc]
  exact (perm_append_comm.append_right _).trans
    ((hrest.append_right _).trans (perm_append_comm.trans hmamba))

theorem getKvCacheGroupsGlm5Next_ok
    (h : getKvCacheGroupsGlm5Next cfg specs = .ok (some (unified, groups))) : Grouped specs unified groups := by
  simp only [getKvCacheGroupsGlm5Next] at h
  split at h
  · cases h
  · next anyMamba hhead =>
    split_ifs at h
    · split at h
      · cases h
      · next idxPage idxPages hidx =>
        simp only [bind_eq_ok, ensure_eq_ok] at h
        obtain ⟨-, -, -, -, h⟩ := h
        split at h
        · next mlaPage hmla =>
          simp only [do_eq_ok] at h
          obtain ⟨res, hres, h⟩ := h
          obtain rfl := some.inj h
          refine .trans ((UnifiedFrom.of_perm (partsOf_perm specs)).trans
            ((UnifiedFrom.refl _).append ((UnifiedFrom.of_map fun e _ => .single (.pageSizePadded idxPage e.2)).append
              (.refl _)))) (sharedSlotGroups_ok ?_ ?_ hres)
          · intro hnil
            rw [hnil] at hhead
            cases hhead
          · intro hnil
            rw [map_eq_nil_iff.1 hnil] at hmla
            cases hmla
        · cases h
    · cases h

/-! ### Draft layers -/

def content (g : KVCacheGroupSpec) : List LayerName × GroupSpec := (g.layerNames, g.kvCacheSpec)

theorem map_content_modify {f : KVCacheGroupSpec → KVCacheGroupSpec} (hf : ∀ g, content (f g) = content g)
    (i : Nat) (groups : List KVCacheGroupSpec) : (groups.modify i f).map content = groups.map content := by
  refine ext_getElem? fun j => ?_
  rw [getElem?_map, getElem?_map, getElem?_modify]
  cases groups[j]? with
  | none => rfl
  | some g => by_cases h : i = j <;> simp [h, hf]

theorem annotateEagleGroups_content (cfg : GroupingConfig) (specs : LayerSpecs) (b : Bool)
    (groups : List KVCacheGroupSpec) :
    (annotateEagleGroups cfg specs b groups).map content = groups.map content := by
  have hmap : ∀ p : KVCacheGroupSpec → Bool,
      (groups.map fun g => if p g then { g with isEagleGroup := true } else g).map content = groups.map content := by
    intro p
    rw [List.map_map]
    refine map_congr_left fun g _ => ?_
    simp only [Function.comp]
    split_ifs <;> rfl
  unfold annotateEagleGroups
  simp only
  split_ifs
  · rfl
  · exact hmap _
  · split
    · exact hmap _
    · refine (map_content_modify ?_ _ _).trans (hmap _)
      exact fun g => rfl

section
variable (h : groups'.map content = groups.map content)
include h

theorem flatMap_layerNames_congr :
    groups'.flatMap KVCacheGroupSpec.layerNames = groups.flatMap KVCacheGroupSpec.layerNames := by
  have := congrArg (List.map Prod.fst) h
  rw [List.map_map, List.map_map] at this
  rw [flatMap_def, flatMap_def]
  exact congrArg List.flatten this

theorem forall_mem_congr {P : KVCacheGroupSpec → Prop} (hP : ∀ g g', content g = content g' → P g → P g')
    (hg : ∀ g ∈ groups, P g) : ∀ g ∈ groups', P g := by
  intro g' hg'
  have := mem_map_of_mem (f := content) hg'
  rw [h] at this
  obtain ⟨g, hmem, heq⟩ := mem_map.1 this
  exact hP g g' heq (hg g hmem)

theorem IsPartition.congr (hg : IsPartition names groups) : IsPartition names groups' :=
  ⟨flatMap_layerNames_congr h ▸ hg.perm,
    forall_mem_congr h (fun _ _ hc hne => (Prod.mk.inj hc).1 ▸ hne) hg.nonempty⟩

end

theorem KeepsSpecs.congr (hc : content g = content g') (h : KeepsSpecs specs g) : KeepsSpecs specs g' := by
  obtain ⟨hnames, hspec⟩ := Prod.mk.inj hc
  intro name hname
  obtain ⟨s, t, hs, ht, hp, hb⟩ := h name (hnames ▸ hname)
  refine ⟨s, t, hs, ?_, hp, hb⟩
  rw [← ht, KVCacheGroupSpec.perLayerSpec, KVCacheGroupSpec.perLayerSpec, hspec]

theorem Grouped.annotate (h : Grouped specs unified groups) (cfg : GroupingConfig) (specs' : LayerSpecs) (b : Bool) :
    Grouped specs unified (annotateEagleGroups cfg specs' b groups) :=
  have hc := annotateEagleGroups_content cfg specs' b groups
  ⟨h.unifiedFrom, h.partition.congr hc, forall_mem_congr hc (fun _ _ => KeepsSpecs.congr) h.keeps⟩

/-! ### The strategies in turn -/

def MergesOnePage (specs : LayerSpecs) : Prop :=
  isKvCacheSpecUniform specs = .ok true → ∀ first ∈ specs.head?, ∀ e ∈ specs, e.2.pageSize = first.2.pageSize

/-- Every bucket that the packed strategy splits, if it comes to that, fits. -/
def PackedFits (cfg : GroupingConfig) (specs : LayerSpecs) : Prop :=
  wholeModelGroups cfg specs = .ok none → packs cfg (specs.filter fun e => !e.2.isHiddenState) = true →
    ∀ buckets repeats, uniformBuckets (specs.filter fun e => !e.2.isHiddenState) = .ok buckets →
      repeatsPerGroup buckets = .ok repeats → ∀ b ∈ buckets, Fits repeats (anchorBytes repeats buckets) b

/-- The condition on the layers under which no layer is lost or put under a spec of another page size. -/
def KeepsAllLayers (cfg : GroupingConfig) (specs : LayerSpecs) : Prop :=
  ∀ unified, hybridUnified cfg specs = .ok unified → MergesOnePage unified ∧ PackedFits cfg unified

theorem eq_of_mem_of_nodup (h : (specs.map Prod.fst).Nodup) {t : LayerSpec}
    (hs : (name, s) ∈ specs) (ht : (name, t) ∈ specs) : s = t := by
  have := (mem_entries (d := ⟨specs, h⟩)).1 hs
  rw [(mem_entries (d := ⟨specs, h⟩)).1 ht] at this
  exact (some.inj this).symm

theorem getKvCacheGroupsUniformSpec_ok
    (hnodup : (specs.map Prod.fst).Nodup) (h : getKvCacheGroupsUniformSpec specs = .ok groups) :
    IsPartition (specs.map Prod.fst) groups ∧
      ((∀ g ∈ groups, KeepsSpecs specs g) ↔ ∀ first ∈ specs.head?, ∀ e ∈ specs, e.2.pageSize = first.2.pageSize) := by
  obtain ⟨hnames, hmerged⟩ := createKvCacheGroupSpecs_ok h
  obtain ⟨g, rfl⟩ : ∃ g, groups = [g] := by
    rw [← length_eq_one_iff]
    simpa using congrArg List.length hnames
  simp only [map_cons, map_nil, List.cons.injEq, and_true] at hnames
  have hg := hmerged g (mem_singleton_self g)
  refine ⟨⟨by simp [hnames], fun g' hg' => mem_singleton.1 hg' ▸ hg.nonempty⟩, fun hkeeps first hfirst e he => ?_, ?_⟩
  · -- each layer has the page size of the merged spec
    have hall : ∀ t, g.kvCacheSpec = .single t → ∀ e ∈ specs, e.2.pageSize = t.pageSize := by
      intro t ht e he
      obtain ⟨s, t', hs, ht', hp, -⟩ := hkeeps g (mem_singleton_self g) e.1 (hnames ▸ mem_map_of_mem he)
      rw [KVCacheGroupSpec.perLayerSpec, ht] at ht'
      obtain rfl := some.inj ht'
      rw [hp, eq_of_mem_of_nodup hnodup he hs]
    obtain ⟨t, -, ht, -⟩ := hg
    rw [hall t ht e he, hall t ht first (mem_of_mem_head? hfirst)]
  · intro hpages g' hg'
    rw [mem_singleton.1 hg']
    cases specs with
    | nil => exact absurd hnames hg.nonempty
    | cons first specs => exact hg.keepsSpecs (hpages first rfl)

theorem wholeModelGroups_ok
    (hnodup : (specs.map Prod.fst).Nodup) (h : wholeModelGroups cfg specs = .ok (some (unified, groups))) :
    UnifiedFrom specs unified ∧ IsPartition (specs.map Prod.fst) groups ∧
      ((∀ g ∈ groups, KeepsSpecs unified g) ↔ MergesOnePage specs) := by
  simp only [wholeModelGroups, bind_eq_ok] at h
  obtain ⟨whole, hwhole, h⟩ := h
  cases whole with
  | true =>
    rw [if_pos rfl] at h
    simp only [do_eq_ok] at h
    obtain ⟨gs, hgs, h⟩ := h
    cases h
    obtain ⟨hpart, hiff⟩ := getKvCacheGroupsUniformSpec_ok hnodup hgs
    exact ⟨.refl _, hpart, hiff.trans ⟨fun hp _ => hp, fun hp => hp hwhole⟩⟩
  | false =>
    have hgrouped : Grouped specs unified groups := by
      rw [if_neg (by simp)] at h
      simp only [bind_eq_ok] at h
      obtain ⟨spec, hspec, h⟩ := h
      cases spec with
      | some spec =>
        cases h
        exact .of_fromSpecs hspec
      | none => exact getKvCacheGroupsGlm5Next_ok h
    refine ⟨hgrouped.unifiedFrom, hgrouped.partition, fun _ hmerge => ?_, fun _ => hgrouped.keeps⟩
    rw [hwhole] at hmerge
    cases hmerge

theorem alignHiddenSpecs_unified {hidden aligned : LayerSpecs}
    (h : alignHiddenSpecs groups hidden = .ok aligned) : UnifiedFrom hidden aligned := by
  unfold alignHiddenSpecs at h
  split_ifs at h with hnil
  · cases h
    rw [hnil]
    exact .refl _
  · split at h
    · refine .of_forall₂ ((mapM_eq_ok.1 h).imp fun e e' he => ?_)
      split at he
      · cases he
      · next a ha =>
        simp only [do_eq_ok] at he
        obtain ⟨-, -, -, -, rfl⟩ := he
        refine ⟨rfl, .single ?_⟩
        rw [ha]
        exact .alignHidden _ _ a
    · cases h

theorem tryGetFullAllocationFallbackGroups_ok
    (h : tryGetFullAllocationFallbackGroups specs = .ok (some (unified, groups))) : Grouped specs unified groups := by
  unfold tryGetFullAllocationFallbackGroups at h
  split_ifs at h
  · cases h
  · cases h
  · split at h
    · cases h
    · cases h
    · next promoted hpromoted =>
      simp only [bind_eq_ok] at h
      obtain ⟨spec, hspec, h⟩ := h
      cases spec with
      | none => cases h
      | some spec =>
        cases h
        exact .trans (promoteLocalKvCacheSpecs_unified hpromoted) (.of_fromSpecs hspec)

theorem hiddenParts_perm (specs : LayerSpecs) :
    (specs.filter (fun e => !e.2.isHiddenState) ++ specs.filter fun e => e.2.isHiddenState).Perm specs :=
  perm_append_comm.trans (filter_append_perm (fun e : LayerName × LayerSpec => e.2.isHiddenState) specs)

theorem hybridGroups_ok
    (hwhole : wholeModelGroups cfg specs = .ok none) (h : hybridGroups cfg specs = .ok (unified, groups)) :
    UnifiedFrom specs unified ∧ (∀ g ∈ groups, KeepsSpecs unified g) ∧
      (IsPartition (specs.map Prod.fst) groups ↔ PackedFits cfg specs) := by
  have hparts := hiddenParts_perm specs
  simp only [hybridGroups, bind_eq_ok] at h
  obtain ⟨-, -, h⟩ := h
  split_ifs at h with hpacks
  · simp only [do_eq_ok] at h
    obtain ⟨packed, hpacked, h⟩ := h
    obtain ⟨rfl, rfl⟩ := Prod.mk.inj h
    obtain ⟨hkeeps, buckets, repeats, hbuckets, hrepeats, hiff⟩ := packedGroups_ok hpacked
    have hhidden := Grouped.singletons (UnifiedFrom.refl (specs.filter fun e => e.2.isHiddenState))
    have hcontent := annotateEagleGroups_content cfg (specs.filter fun e => !e.2.isHiddenState)
      cfg.deepseekV4Eagle packed
    have hboth := forall_mem_congr hcontent (fun g g' hc hg => ⟨(Prod.mk.inj hc).1 ▸ hg.1, hg.2.congr hc⟩) hkeeps
    -- the hidden-state layers are in groups of their own, so the packed ones must cover the rest
    have hcover : ((annotateEagleGroups cfg (specs.filter fun e => !e.2.isHiddenState) cfg.deepseekV4Eagle packed ++
        singletonGroups (specs.filter fun e => e.2.isHiddenState)).flatMap KVCacheGroupSpec.layerNames).Perm
          (specs.map Prod.fst) ↔
        (packed.flatMap KVCacheGroupSpec.layerNames).Perm ((specs.filter fun e => !e.2.isHiddenState).map
          Prod.fst) := by
      rw [flatMap_append, flatMap_layerNames_congr hcontent, ← (hparts.map Prod.fst).congr_right, map_append,
        ← (hhidden.partition.perm.append_left _).congr_right, perm_append_right_iff]
    refine ⟨.refl _, fun g hg => ?_, fun hpart _ _ buckets' repeats' hbuckets' hrepeats' => ?_,
      fun hfits => ⟨?_, fun g hg => ?_⟩⟩
    · rcases mem_append.1 hg with hg | hg
      · exact (hboth g hg).2.mono fun e he => (mem_filter.1 he).1
      · exact (hhidden.keeps g hg).mono fun e he => (mem_filter.1 he).1
    · cases hbuckets.symm.trans hbuckets'
      cases hrepeats.symm.trans hrepeats'
      exact hiff.1 (hcover.1 hpart.perm)
    · exact hcover.2 (hiff.2 (hfits hwhole hpacks buckets repeats hbuckets hrepeats))
    · rcases mem_append.1 hg with hg | hg
      · exact (hboth g hg).1
      · exact hhidden.partition.nonempty g hg
  · have hgrouped : Grouped specs unified groups := by
      split at h
      · simp only [bind_eq_ok] at h
        obtain ⟨fallback, hfallback, h⟩ := h
        cases fallback with
        | none => cases h
        | some res =>
          cases h
          exact (tryGetFullAllocationFallbackGroups_ok hfallback).annotate ..
      · cases h
      · next filtered hfiltered =>
        simp only [do_eq_ok] at h
        obtain ⟨gs, hgs, aligned, haligned, h⟩ := h
        obtain ⟨rfl, rfl⟩ := Prod.mk.inj h
        obtain ⟨hunified, p, hp⟩ := unifyKvCacheSpecPageSize_ok hfiltered
        obtain ⟨hperm, hmerged⟩ := getKvCacheGroupsUniformPageSize_ok hgs
        refine Grouped.annotate ?_ ..
        exact .trans (.of_perm hparts)
          ((Grouped.of_merged hunified hp hperm hmerged).append (.singletons (alignHiddenSpecs_unified haligned)))
    exact ⟨hgrouped.unifiedFrom, hgrouped.keeps, fun _ _ hp => absurd hp hpacks, fun _ => hgrouped.partition⟩

/-- Whenever `get_kv_cache_groups` returns groups for a model with layers, they are a partition of the layers
and keep the page size and grouping class of each layer, as the unification left them, if and only if
`KeepsAllLayers` holds of the given specs. -/
theorem getKvCacheGroups_partition_iff (cfg : GroupingConfig) (kvCacheSpec : Dict LayerName LayerSpec)
    (hne : kvCacheSpec.entries ≠ []) {unified : LayerSpecs} {groups : List KVCacheGroupSpec}
    (h : getKvCacheGroups cfg kvCacheSpec = .ok (unified, groups)) : UnifiedFrom kvCacheSpec.entries unified ∧
      (IsPartition kvCacheSpec.keys groups ∧ (∀ g ∈ groups, KeepsSpecs unified g) ↔
        KeepsAllLayers cfg kvCacheSpec.entries) := by
  simp only [getKvCacheGroups, bind_eq_ok] at h
  obtain ⟨specs, hspecs, h⟩ := h
  have hfrom := hybridUnified_unified hspecs
  have hnodup : (specs.map Prod.fst).Nodup := hfrom.names.nodup_iff.2 kvCacheSpec.nodup
  have hcond : KeepsAllLayers cfg kvCacheSpec.entries ↔ MergesOnePage specs ∧ PackedFits cfg specs := by
    refine ⟨fun hall => hall specs hspecs, fun hboth specs' hspecs' => ?_⟩
    cases hspecs.symm.trans hspecs'
    exact hboth
  have hpart : ∀ gs, IsPartition kvCacheSpec.keys gs ↔ IsPartition (specs.map Prod.fst) gs := fun gs =>
    ⟨fun hp => ⟨hp.perm.trans hfrom.names.symm, hp.nonempty⟩, fun hp => ⟨hp.perm.trans hfrom.names, hp.nonempty⟩⟩
  rw [hcond, hpart]
  split_ifs at h with hnil
  · have := hfrom.names.length_eq
    rw [hnil] at this
    exact absurd (length_eq_zero_iff.1 (by simpa using this.symm)) hne
  · simp only [bind_eq_ok] at h
    obtain ⟨whole, hwhole, h⟩ := h
    cases whole with
    | some res =>
      obtain ⟨unified', gs⟩ := res
      obtain ⟨rfl, rfl⟩ := Prod.mk.inj (pure_eq_ok.1 h)
      obtain ⟨hu, hp, hiff⟩ := wholeModelGroups_ok hnodup hwhole
      have hc := annotateEagleGroups_content cfg specs false gs
      refine ⟨hfrom.trans hu, fun hboth => ⟨hiff.1 ?_, fun hnone => ?_⟩, fun hboth => ⟨hp.congr hc, ?_⟩⟩
      · exact forall_mem_congr hc.symm (fun _ _ => KeepsSpecs.congr) hboth.2
      · rw [hwhole] at hnone
        cases hnone
      · exact forall_mem_congr hc (fun _ _ => KeepsSpecs.congr) (hiff.2 hboth.1)
    | none =>
      obtain ⟨hu, hkeeps, hiff⟩ := hybridGroups_ok hwhole h
      refine ⟨hfrom.trans hu, fun hboth => ⟨fun hmerge => ?_, hiff.1 hboth.1⟩, fun hboth => ⟨hiff.2 hboth.2, hkeeps⟩⟩
      -- mergeable specs are grouped before the hybrid strategies are tried
      simp only [wholeModelGroups, hmerge, ok_bind, if_true, bind_eq_ok] at hwhole
      obtain ⟨gs, -, hgs⟩ := hwhole
      cases hgs

/-! ### Layers that are lost, layers under another page size -/

/-- A layer whose page holds 16 states of `k + v` bytes. -/
def smallLayer (cls : AttentionClass) (k v : Nat) (noV : cls.isLatent → v = 0 := by simp [AttentionClass.isLatent]) :
    LayerSpec :=
  .attention ⟨{ blockSize := 16, numKvHeads := 1, headSize := k, headSizeV := v, dtype := ⟨"uint8", 1⟩ }, cls, noV⟩

def fullLayer (k : Nat) : LayerSpec := smallLayer (.fullAttention {}) k k

def windowLayer (k : Nat) : LayerSpec := smallLayer (.slidingWindow ⟨8, 0⟩) k k

/-- A full-attention layer next to sliding-window layers of two page sizes, two and `n` of them. -/
def mixedLayers (n : Nat) : LayerSpecs :=
  (0, fullLayer 2) ::
    ([(1, 1), (2, 1)] ++ (List.range n).map (fun i => (3 + i, 2))).map fun e : Nat × Nat =>
      (e.1, windowLayer e.2)

/-- With two layers of each page size the sliding-window layers are emitted whole, as one group, and all is
kept. -/
theorem getKvCacheGroups_partition_iff_mixed : ∃ unified groups,
    getKvCacheGroups { layout := .BLNHC } ⟨mixedLayers 2, by decide⟩ = .ok (unified, groups) ∧
      groups.map KVCacheGroupSpec.layerNames = [[0], [1, 2, 3, 4]] ∧
      IsPartition [0, 1, 2, 3, 4] groups ∧ ∀ g ∈ groups, KeepsSpecs unified g := by
  have hkeeps : KeepsAllLayers { layout := .BLNHC } (mixedLayers 2) := by
    rintro unified ⟨⟩
    refine ⟨by unfold MergesOnePage; decide, fun _ _ buckets repeats hbuckets hrepeats => ?_⟩
    cases hbuckets
    cases hrepeats
    unfold Fits
    decide
  exact ⟨_, _, rfl, by decide,
    (getKvCacheGroups_partition_iff { layout := .BLNHC } ⟨mixedLayers 2, by decide⟩ (by decide) rfl).2.2 hkeeps⟩

/-- With two layers of one and three of the other page size the last layer is in no group; and of two latent
sliding-window layers the second is put under the page size of the first. -/
theorem getKvCacheGroups_loses_layer :
    (∃ unified groups, getKvCacheGroups { layout := .BLNHC } ⟨mixedLayers 3, by decide⟩ = .ok (unified, groups) ∧
      5 ∈ (mixedLayers 3).map Prod.fst ∧ ∀ g ∈ groups, 5 ∉ g.layerNames) ∧
    ∃ unified groups, getKvCacheGroups {} ⟨[(0, smallLayer (.slidingWindowMla ⟨8, 0⟩ {}) 4 0),
        (1, smallLayer (.slidingWindowMla ⟨8, 0⟩ {}) 2 0)], by decide⟩ = .ok (unified, groups) ∧
      unified.map (fun e => e.2.pageSize) = [64, 32] ∧
      groups.map (fun g => (g.layerNames, g.kvCacheSpec.pageSize)) = [([0, 1], 64)] :=
  ⟨⟨_, _, rfl, by decide, by decide⟩, ⟨_, _, rfl, by decide, by decide⟩⟩

end VllmCore.Grouping
