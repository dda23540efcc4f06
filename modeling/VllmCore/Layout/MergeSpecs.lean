import VllmCore.Layout.Grouping

/-! # What merging and unifying keep of a spec

A merged spec has the page size of the first member and the grouping class of every member. The members
themselves may have other page sizes in one case only: the merge of latent sliding-window specs does not
compare the attention fields. Of the unification steps only the promotion of local attention changes the
grouping class. -/

namespace VllmCore
open Except List
variable {s t first : LayerSpec} {fields merged : AttentionSpec}

namespace LayerSpec
variable {specs rest : List LayerSpec}

theorem pageSize_congr {a : AttentionSpec} (hs : s.fields? = some a) (ht : t.fields? = some a) :
    s.pageSize = t.pageSize := by
  cases s with
  | mamba m => cases hs
  | attention s =>
    cases t with
    | mamba m => cases ht
    | attention t =>
      obtain rfl := Option.some.inj hs
      obtain h := Option.some.inj ht
      simp only [pageSize, pageSizePadded, realPageSizeBytes, h]

theorem uniformTypeBase_of_full (h : s.full?.isSome) : s.uniformTypeBase = some .fullAttention := by
  cases s with
  | mamba m => cases h
  | attention a =>
    obtain ⟨fields, cls, noV⟩ := a
    cases cls <;> first | rfl | cases h

theorem full?_of_mla? (h : s.mla?.isSome) : s.full?.isSome := by
  cases s with
  | mamba m => cases h
  | attention a =>
    obtain ⟨fields, cls, noV⟩ := a
    cases cls <;> first | rfl | cases h

/-! ### Merging -/

/-- What a merge tells about its result: the page size of the first member, the grouping class of all. -/
structure Merged (specs : List LayerSpec) (t : LayerSpec) : Prop where
  page : ∀ s ∈ specs.head?, t.pageSize = s.pageSize
  base : ∀ s ∈ specs, t.uniformTypeBase = s.uniformTypeBase

theorem mergeEqual_merged (h : mergeEqual first rest = .ok t) : Merged (first :: rest) t := by
  simp only [mergeEqual, do_eq_ok] at h
  obtain ⟨-, hall, rfl⟩ := h
  refine ⟨by simp, fun s hs => ?_⟩
  rcases mem_cons.1 hs with rfl | hs
  · rfl
  · rw [hall s hs]

theorem mergeFull_ok {f : FullFields} (h : mergeFull merged specs = .ok f) :
    ∀ s ∈ specs, s.full?.isSome ∧ s.fields? = some merged := by
  simp only [mergeFull, bind_eq_ok, ensure_eq_ok] at h
  obtain ⟨-, hfull, -, -, -, -, -, -, -, hfields, -⟩ := h
  exact fun s hs => ⟨hfull s hs, hfields s hs⟩

theorem mergeMla_ok {m m' : MlaFields} (h : mergeMla fields m specs = .ok m') :
    ∀ s ∈ specs, s.full?.isSome ∧ s.fields? = some fields := by
  simp only [mergeMla, bind_eq_ok, ensure_eq_ok] at h
  obtain ⟨-, hmla, -, -, -, hfields, -⟩ := h
  exact fun s hs => ⟨full?_of_mla? (hmla s hs), hfields s hs⟩

theorem Merged.of_full {a : AttentionLayer} (ha : a.cls.full?.isSome)
    (h : ∀ s ∈ specs, s.full?.isSome ∧ s.fields? = some a.fields) : Merged specs (.attention a) where
  page s hs := pageSize_congr (a := a.fields) rfl (h s (mem_of_mem_head? hs)).2
  base s hs := (uniformTypeBase_of_full (s := .attention a) ha).trans (uniformTypeBase_of_full (h s hs).1).symm

theorem checkWindowMla_ok {w : WindowFields} {m : WindowMlaFields} {u : Unit}
    (h : checkWindowMla fields w m specs = .ok u) : ∀ s ∈ specs, s.uniformTypeBase = some .slidingWindowMla := by
  simp only [checkWindowMla, bind_eq_ok, ensure_eq_ok] at h
  obtain ⟨-, hmem, -⟩ := h
  intro s hs
  have := hmem _ (mem_map_of_mem hs)
  cases s with
  | mamba m => cases this
  | attention a =>
    obtain ⟨fields, cls, noV⟩ := a
    cases cls <;> first | rfl | cases this

theorem merge_merged (h : merge first rest = .ok t) : Merged (first :: rest) t := by
  cases first with
  | mamba m => exact mergeEqual_merged h
  | attention a =>
    obtain ⟨fields, cls, noV⟩ := a
    cases cls with
    | fullAttention f =>
      simp only [merge, do_eq_ok] at h
      obtain ⟨full, hfull, rfl⟩ := h
      exact .of_full rfl (mergeFull_ok hfull)
    | rswa f w =>
      simp only [merge, do_eq_ok] at h
      obtain ⟨-, -, full, hfull, rfl⟩ := h
      exact .of_full rfl (mergeFull_ok hfull)
    | sinkFullAttention f l =>
      simp only [merge, do_eq_ok] at h
      obtain ⟨full, hfull, rfl⟩ := h
      exact .of_full rfl (mergeFull_ok hfull)
    | mla f m =>
      simp only [merge, do_eq_ok] at h
      obtain ⟨mla, hmla, rfl⟩ := h
      exact .of_full rfl (mergeMla_ok hmla)
    | hiddenState f m =>
      simp only [merge, do_eq_ok] at h
      obtain ⟨mla, hmla, rfl⟩ := h
      exact .of_full rfl (mergeMla_ok hmla)
    | slidingWindowMla w m =>
      simp only [merge, do_eq_ok] at h
      obtain ⟨_, hcheck, rfl⟩ := h
      -- the page is read off the fields, of which only the quantization mode was reset
      refine ⟨fun s hs => ?_, fun s hs => (checkWindowMla_ok hcheck s hs).symm⟩
      obtain rfl := Option.some.inj hs
      rfl
    | _ => exact mergeEqual_merged h

end LayerSpec

namespace Grouping
variable {specs unified promoted : LayerSpecs} {p : Nat}

/-! ### Unifying -/

/-- The changes that the unification steps make to a spec. -/
inductive UnifyStep : LayerSpec → LayerSpec → Prop
  | promote (b : Option Nat) (s : LayerSpec) : UnifyStep s (promote b s)
  | blockSize (n : Nat) (s : LayerSpec) : UnifyStep s (s.withBlockSize n)
  | pageSizePadded (p : Nat) (s : LayerSpec) : UnifyStep s (s.withPageSizePadded p)
  | alignHidden (n p : Nat) (a : AttentionLayer) : UnifyStep (.attention a)
      (.attention (.build { a.fields with blockSize := n, pageSizePadded := some p } a.cls a.noV))

/-- `unified` holds the given layers, each with its spec as a series of unification steps left it. -/
structure UnifiedFrom (specs unified : LayerSpecs) : Prop where
  names : (unified.map Prod.fst).Perm (specs.map Prod.fst)
  steps : ∀ e ∈ unified, ∃ s, (e.1, s) ∈ specs ∧ Relation.ReflTransGen UnifyStep s e.2

namespace UnifiedFrom
variable {a b c a' b' : LayerSpecs}

theorem refl (a : LayerSpecs) : UnifiedFrom a a := ⟨.refl _, fun e he => ⟨e.2, he, .refl⟩⟩

theorem trans (h : UnifiedFrom a b) (h' : UnifiedFrom b c) : UnifiedFrom a c := by
  refine ⟨h'.names.trans h.names, fun e he => ?_⟩
  obtain ⟨s, hs, hsteps'⟩ := h'.steps e he
  obtain ⟨s₀, hs₀, hsteps⟩ := h.steps _ hs
  exact ⟨s₀, hs₀, hsteps.trans hsteps'⟩

theorem of_perm (h : b.Perm a) : UnifiedFrom a b :=
  ⟨h.map _, fun e he => ⟨e.2, h.mem_iff.1 he, .refl⟩⟩

theorem append (h : UnifiedFrom a b) (h' : UnifiedFrom a' b') : UnifiedFrom (a ++ a') (b ++ b') := by
  refine ⟨by simpa using h.names.append h'.names, fun e he => ?_⟩
  rcases mem_append.1 he with he | he
  · obtain ⟨s, hs, hsteps⟩ := h.steps e he
    exact ⟨s, mem_append_left _ hs, hsteps⟩
  · obtain ⟨s, hs, hsteps⟩ := h'.steps e he
    exact ⟨s, mem_append_right _ hs, hsteps⟩

theorem of_forall₂ (h : List.Forall₂ (fun e e' : LayerName × LayerSpec =>
    e'.1 = e.1 ∧ Relation.ReflTransGen UnifyStep e.2 e'.2) a b) : UnifiedFrom a b := by
  induction h with
  | nil => exact refl []
  | @cons e e' l l' hstep _ ih =>
    obtain ⟨hname, hsteps⟩ := hstep
    refine ⟨by simpa [hname] using ih.names, fun d hd => ?_⟩
    rcases mem_cons.1 hd with rfl | hd
    · exact ⟨e.2, hname ▸ mem_cons_self .., hsteps⟩
    · obtain ⟨s, hs, hsteps⟩ := ih.steps d hd
      exact ⟨s, mem_cons_of_mem _ hs, hsteps⟩

theorem of_map {f : LayerName × LayerSpec → LayerSpec}
    (h : ∀ e ∈ a, Relation.ReflTransGen UnifyStep e.2 (f e)) : UnifiedFrom a (a.map fun e => (e.1, f e)) :=
  .of_forall₂ (forall₂_map_right_iff.2 (forall₂_same.2 fun e he => ⟨rfl, h e he⟩))

end UnifiedFrom

theorem promoteLocalKvCacheSpecs_unified (h : promoteLocalKvCacheSpecs specs = .ok promoted) :
    UnifiedFrom specs promoted := by
  simp only [promoteLocalKvCacheSpecs, bind_eq_ok] at h
  obtain ⟨whole, -, h⟩ := h
  cases whole with
  | true =>
    obtain rfl := pure_eq_ok.1 h
    exact .refl _
  | false =>
    rw [if_neg (by simp)] at h
    simp only [bind_eq_ok] at h
    obtain ⟨ok, -, h⟩ := h
    cases ok with
    | false => cases h
    | true =>
      obtain rfl := pure_eq_ok.1 h
      split
      · exact .of_map fun e _ => .single (.promote _ _)
      · exact .refl _

theorem hybridUnified_unified {cfg : GroupingConfig} (h : hybridUnified cfg specs = .ok unified) :
    UnifiedFrom specs unified := by
  unfold hybridUnified at h
  split at h
  · simp only [unifyHybridKvCacheSpecs, bind_eq_ok] at h
    obtain ⟨whole, -, h⟩ := h
    cases whole with
    | true =>
      obtain rfl := pure_eq_ok.1 h
      exact .refl _
    | false => exact promoteLocalKvCacheSpecs_unified h
  · cases h
    exact .refl _

theorem pageSizeBytes_ok (h : s.pageSizeBytes = .ok p) : s.pageSize = p := by
  simp only [LayerSpec.pageSizeBytes, do_eq_ok] at h
  obtain ⟨-, -, h⟩ := h
  exact h

theorem enlarged_step (h : enlarged p s = .ok t) : UnifyStep s t := by
  unfold enlarged at h
  split_ifs at h
  · cases h
    exact .pageSizePadded p s
  · cases h
    exact .blockSize _ s
  · cases h
    exact .pageSizePadded p s

theorem unifyPageSize_ok (h : unifyPageSize p s = .ok t) : t.pageSize = p ∧ Relation.ReflTransGen UnifyStep s t := by
  unfold unifyPageSize at h
  split_ifs at h with hp
  · cases h
    exact ⟨hp, .refl⟩
  · simp only [do_eq_ok] at h
    obtain ⟨new, hnew, page, hpage, -, rfl, rfl⟩ := h
    exact ⟨pageSizeBytes_ok hpage, .single (enlarged_step hnew)⟩

theorem eq_of_dedup_length_le_one {α : Type} [DecidableEq α] {l : List α} (h : l.dedup.length ≤ 1) {a b : α}
    (ha : a ∈ l) (hb : b ∈ l) : a = b := by
  rw [← mem_dedup] at ha hb
  obtain ⟨i, hi, rfl⟩ := getElem_of_mem ha
  obtain ⟨j, hj, rfl⟩ := getElem_of_mem hb
  obtain rfl : i = j := by omega
  rfl

theorem unifyKvCacheSpecPageSize_ok (h : unifyKvCacheSpecPageSize specs = .ok unified) :
    UnifiedFrom specs unified ∧ ∃ p, ∀ e ∈ unified, e.2.pageSize = p := by
  simp only [unifyKvCacheSpecPageSize, bind_eq_ok] at h
  obtain ⟨pages, hpages, h⟩ := h
  split_ifs at h with hle
  · cases pure_eq_ok.1 h
    refine ⟨.refl _, (pages.head?).getD 0, fun e he => ?_⟩
    obtain ⟨p, hp, hpage⟩ := (mapM_eq_ok.1 hpages).exists_right he
    cases pages with
    | nil => cases hp
    | cons q pages =>
      rw [pageSizeBytes_ok hpage]
      exact eq_of_dedup_length_le_one hle hp (mem_cons_self ..)
  · have h := mapM_eq_ok.1 h
    simp only [do_eq_ok] at h
    refine ⟨.of_forall₂ (h.imp ?_), pages.max?.getD 0, ?_⟩
    · rintro e _ ⟨s, hs, rfl⟩
      exact ⟨rfl, (unifyPageSize_ok hs).2⟩
    · intro e he
      obtain ⟨_, -, s, hs, rfl⟩ := h.exists_left he
      exact (unifyPageSize_ok hs).1

end Grouping

end VllmCore
