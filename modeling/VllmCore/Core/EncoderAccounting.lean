import VllmCore.Core.EncoderCache

/-! # The slots of the encoder cache

The encoder cache keeps two counters beside its entries: the free slots, and the slots that are free or
held by unreferenced items. `Accounted` ties them to the entries. It is kept by every call in the order
in which the scheduler makes them: an item is looked up, planned if it fits beside the items planned so
far, and allocated later; references are dropped at any time. -/

namespace VllmCore
open Except List Option Dict
variable {η : Type}

def SizedBy (size : Nat → Nat) (request : Request η) : Prop :=
  ∀ f ∈ request.mmFeatures, f.mmPosition.getNumEmbeds = size f.identifier

namespace EncoderCacheManager
variable {size : Nat → Nat} {m m' : EncoderCacheManager} {h n : Nat}

/-- The counters agree with the entries, and the freeable items are the unreferenced ones. -/
structure Accounted (size : Nat → Nat) (m : EncoderCacheManager) : Prop where
  slots : m.numFreeSlots + (m.cached.total fun h _ => size h : Nat) = m.cacheSize
  freeableSlots : m.numFreeableSlots = m.numFreeSlots + (m.freeable.total fun h _ => size h : Nat)
  unreferenced : ∀ h, (m.freeable.get? h).isSome ↔ m.cached.get? h = some []
  counts : ∀ h n, m.freeable.get? h = some n → n = size h

namespace Accounted
variable {refs' refs : List RequestId} (ha : Accounted size m)
include ha

theorem congr (h1 : m'.cacheSize = m.cacheSize) (h2 : m'.numFreeSlots = m.numFreeSlots)
    (h3 : m'.numFreeableSlots = m.numFreeableSlots) (h4 : m'.cached = m.cached) (h5 : m'.freeable = m.freeable) :
    Accounted size m' := by
  refine ⟨?_, ?_, ?_, ?_⟩
  · rw [h1, h2, h4]; exact ha.slots
  · rw [h2, h3, h5]; exact ha.freeableSlots
  · rw [h4, h5]; exact ha.unreferenced
  · rw [h5]; exact ha.counts

omit ha in
theorem start (size : Nat → Nat) (n : Int) :
    Accounted size { cacheSize := n, numFreeSlots := n, numFreeableSlots := n } where
  slots := by simp
  freeableSlots := by simp
  unreferenced := by simp
  counts := by simp

theorem freeable_none (hc : m.cached.get? h ≠ some []) : m.freeable.get? h = none := by
  cases hf : m.freeable.get? h with
  | none => rfl
  | some n => exact absurd ((ha.unreferenced h).1 (by rw [hf]; rfl)) hc

/-! ### Moves -/

theorem rewrite (hc : m.cached.get? h = some refs) (hne : refs ≠ []) (hne' : refs' ≠ []) :
    Accounted size { m with cached := m.cached.set h refs' } where
  slots := by
    have htotal := m.cached.total_set (fun h _ => size h) h refs'
    rw [hc, elim_some] at htotal
    have := ha.slots
    simp only
    omega
  freeableSlots := ha.freeableSlots
  unreferenced h' := by
    rw [get?_set]
    split_ifs with heq
    · rw [heq, ha.freeable_none (by rw [hc]; simpa using hne)]
      simpa using hne'
    · exact ha.unreferenced h'
  counts := ha.counts

theorem reclaimed (hf : m.freeable.get? h = some n) (hne' : refs' ≠ []) : Accounted size { m with
      cached := m.cached.set h refs'
      freeable := m.freeable.erase h
      numFreeableSlots := m.numFreeableSlots - n } where
  slots := by
    have hc := (ha.unreferenced h).1 (by rw [hf]; rfl)
    have htotal := m.cached.total_set (fun h _ => size h) h refs'
    rw [hc, elim_some] at htotal
    have := ha.slots
    simp only
    omega
  freeableSlots := by
    have htotal := m.freeable.total_erase (fun h _ => size h) h
    rw [hf, elim_some] at htotal
    have hn := ha.counts h n hf
    have := ha.freeableSlots
    simp only
    omega
  unreferenced h' := by
    rw [get?_set, get?_erase]
    split_ifs with heq
    · simpa using hne'
    · exact ha.unreferenced h'
  counts h' n' := by
    rw [get?_erase]
    split_ifs
    · simp
    · exact ha.counts h' n'

theorem allocated (hc : m.cached.get? h = none) (hne' : refs' ≠ []) : Accounted size { m with
      cached := m.cached.set h refs'
      numFreeSlots := m.numFreeSlots - size h
      numFreeableSlots := m.numFreeableSlots - size h } where
  slots := by
    have htotal := m.cached.total_set (fun h _ => size h) h refs'
    rw [hc, elim_none] at htotal
    have := ha.slots
    simp only
    omega
  freeableSlots := by
    have := ha.freeableSlots
    simp only
    omega
  unreferenced h' := by
    rw [get?_set]
    split_ifs with heq
    · rw [heq, ha.freeable_none (by rw [hc]; simp)]
      simpa using hne'
    · exact ha.unreferenced h'
  counts := ha.counts

theorem released (hc : m.cached.get? h = some refs) (hne : refs ≠ []) : Accounted size { m with
      cached := m.cached.set h []
      freeable := m.freeable.set h (size h)
      numFreeableSlots := m.numFreeableSlots + size h } where
  slots := by
    have htotal := m.cached.total_set (fun h _ => size h) h []
    rw [hc, elim_some] at htotal
    have := ha.slots
    simp only
    omega
  freeableSlots := by
    have htotal := m.freeable.total_set (fun h _ => size h) h (size h)
    rw [ha.freeable_none (by rw [hc]; simpa using hne), elim_none] at htotal
    have := ha.freeableSlots
    simp only
    omega
  unreferenced h' := by
    rw [get?_set, get?_set]
    split_ifs
    · simp
    · exact ha.unreferenced h'
  counts h' n' := by
    rw [get?_set]
    split_ifs with heq
    · intro hn
      rw [heq, some.inj hn]
    · exact ha.counts h' n'

theorem evicted (hf : m.freeable.get? h = some n) : Accounted size (m.evict h n) where
  slots := by
    have htotal := m.cached.total_erase (fun h _ => size h) h
    rw [(ha.unreferenced h).1 (by rw [hf]; rfl), elim_some] at htotal
    have hn := ha.counts h n hf
    have := ha.slots
    simp only [evict]
    omega
  freeableSlots := by
    have htotal := m.freeable.total_erase (fun h _ => size h) h
    rw [hf, elim_some] at htotal
    have hn := ha.counts h n hf
    have := ha.freeableSlots
    simp only [evict]
    omega
  unreferenced h' := by
    simp only [evict, get?_erase]
    split_ifs
    · simp
    · exact ha.unreferenced h'
  counts h' n' := by
    simp only [evict, get?_erase]
    split_ifs
    · simp
    · exact ha.counts h' n'

end Accounted

/-! ### Calls -/

section Calls
variable {request : Request η} {i : Nat} {f : MultiModalFeatureSpec}

theorem insertNew_ne_nil {α : Type} [DecidableEq α] (a : α) (l : List α) : insertNew a l ≠ [] := by
  unfold insertNew
  split_ifs with ha
  · exact ne_nil_of_mem ha
  · simp

theorem mmFeature_eq_ok : request.mmFeature i = .ok f ↔ request.mmFeatures[i]? = some f := by
  unfold Request.mmFeature
  cases request.mmFeatures[i]? <;> simp

theorem getNumEncoderEmbeds_eq (hsize : SizedBy size request) (hf : request.mmFeatures[i]? = some f) :
    request.getNumEncoderEmbeds i = .ok (size f.identifier) := by
  unfold Request.getNumEncoderEmbeds
  simp only [hf]
  rw [hsize f (mem_of_getElem? hf)]

/-- References come and go, but no item and no slot. -/
structure Keeps (m m' : EncoderCacheManager) : Prop where
  size : m'.cacheSize = m.cacheSize
  free : m'.numFreeSlots = m.numFreeSlots
  cached : ∀ h, m'.cached.contains h = m.cached.contains h

theorem Keeps.refl (m : EncoderCacheManager) : Keeps m m := ⟨rfl, rfl, fun _ => rfl⟩

theorem Keeps.trans {m₁ m₂ m₃ : EncoderCacheManager} (h : Keeps m₁ m₂) (h' : Keeps m₂ m₃) : Keeps m₁ m₃ :=
  ⟨h'.size.trans h.size, h'.free.trans h.free, fun k => (h'.cached k).trans (h.cached k)⟩

theorem contains_set {d : Dict Nat (List RequestId)} {k : Nat} (hk : d.contains k = true) (refs : List RequestId)
    (h : Nat) :
    (d.set k refs).contains h = d.contains h := by
  rw [Dict.contains, Dict.contains, get?_set]
  split_ifs with heq
  · rw [heq, ← Dict.contains, hk]
    rfl
  · rfl

theorem checkAndUpdateCache_ok (ha : Accounted size m) (hf : request.mmFeatures[i]? = some f) :
    ∃ hit m', m.checkAndUpdateCache request i = .ok (hit, m') ∧ Accounted size m' ∧ Keeps m m' ∧
      hit = m.cached.contains f.identifier ∧ (hit = false → m' = m) := by
  unfold checkAndUpdateCache
  rw [mmFeature_eq_ok.2 hf, ok_bind]
  split
  · next hc => exact ⟨false, m, rfl, ha, .refl m, by rw [Dict.contains, hc]; rfl, fun _ => rfl⟩
  · next hc =>
    have hin : m.cached.contains f.identifier = true := by rw [Dict.contains, hc]; rfl
    cases hn : m.freeable.get? f.identifier with
    | none =>
      have := (ha.unreferenced f.identifier).2 hc
      rw [hn] at this
      cases this
    | some n =>
      rw [reclaim, hn]
      exact ⟨true, _, rfl, (ha.reclaimed hn (insertNew_ne_nil request.requestId [])).congr rfl rfl rfl rfl rfl,
        ⟨rfl, rfl, contains_set hin _⟩, hin.symm, fun hhit => by cases hhit⟩
  · next refs hne hc =>
    have hin : m.cached.contains f.identifier = true := by rw [Dict.contains, hc]; rfl
    refine ⟨true, _, rfl, (ha.rewrite hc ?_ (insertNew_ne_nil request.requestId refs)).congr rfl rfl rfl rfl rfl,
      ⟨rfl, rfl, contains_set hin _⟩, hin.symm, fun hhit => by cases hhit⟩
    rintro rfl
    exact hne rfl

structure Evicts (m m' : EncoderCacheManager) : Prop where
  size : m'.cacheSize = m.cacheSize
  free : m.numFreeSlots ≤ m'.numFreeSlots
  referenced : ∀ h refs, refs ≠ [] → m.cached.get? h = some refs → m'.cached.get? h = some refs
  cached : ∀ h refs, m'.cached.get? h = some refs → m.cached.get? h = some refs

theorem Evicts.refl (m : EncoderCacheManager) : Evicts m m := ⟨rfl, Int.le_refl _, fun _ _ _ h => h, fun _ _ h => h⟩

theorem Evicts.trans {m₁ m₂ m₃ : EncoderCacheManager} (h : Evicts m₁ m₂) (h' : Evicts m₂ m₃) : Evicts m₁ m₃ where
  size := h'.size.trans h.size
  free := h.free.trans h'.free
  referenced k refs hne hk := h'.referenced k refs hne (h.referenced k refs hne hk)
  cached k refs hk := h.cached k refs (h'.cached k refs hk)

theorem Evicts.evict (ha : Accounted size m) (hf : m.freeable.get? h = some n) : Evicts m (m.evict h n) where
  size := rfl
  free := by simp [EncoderCacheManager.evict]
  referenced k refs hne hk := by
    simp only [EncoderCacheManager.evict, get?_erase]
    rw [if_neg, hk]
    rintro rfl
    have := (ha.unreferenced k).1 (by rw [hf]; rfl)
    exact hne (some.inj (hk.symm.trans this))
  cached k refs hk := by
    simp only [EncoderCacheManager.evict, get?_erase] at hk
    split_ifs at hk
    exact hk

/-- The eviction loop ends before the freeable items do, as they make up the freeable slots. -/
theorem evictLoop_ok {need : Int} : ∀ {l : List (Nat × Nat)} {m : EncoderCacheManager}, m.freeable.entries = l →
    Accounted size m → need ≤ m.numFreeableSlots →
    ∃ m', evictLoop need l m = .ok m' ∧ Accounted size m' ∧ Evicts m m' ∧ need ≤ m'.numFreeSlots
  | [], m, hl, ha, hneed => by
    have htotal : (m.freeable.total fun h _ => size h) = 0 := by simp [Dict.total, hl]
    have hfree := ha.freeableSlots
    rw [htotal] at hfree
    exact ⟨m, by rw [evictLoop, if_neg (by omega)], ha, .refl m, by omega⟩
  | (h, n) :: rest, m, hl, ha, hneed => by
    unfold evictLoop
    split_ifs with hmore
    · have hf : m.freeable.get? h = some n := mem_entries.1 (hl ▸ mem_cons_self ..)
      have hc := (ha.unreferenced h).1 (by rw [hf]; rfl)
      -- what is left of the freeable items is the rest of the list
      have hrest : (m.evict h n).freeable.entries = rest := by
        have hnodup := m.freeable.nodup
        rw [hl, map_cons, nodup_cons] at hnodup
        simp only [EncoderCacheManager.evict, Dict.erase, hl]
        rw [filter_cons_of_neg (by simp), filter_eq_self.2]
        intro e he
        simpa using fun heq : e.1 = h => hnodup.1 (mem_map.2 ⟨e, he, heq⟩)
      obtain ⟨m', hok, ha', hev, hneed'⟩ := evictLoop_ok hrest (ha.evicted hf) hneed
      refine ⟨m', ?_, ha', (Evicts.evict ha hf).trans hev, hneed'⟩
      rw [ensure, if_pos (by rw [Dict.contains, hc]; rfl), ok_bind, hok]
    · exact ⟨m, rfl, ha, .refl m, by omega⟩

section
variable (ha : Accounted size m) (hsize : SizedBy size request)
include ha hsize

/-- `can_allocate` never fails; it may evict, but no referenced item, and if it answers yes there is room. -/
theorem canAllocate_ok (hf : request.mmFeatures[i]? = some f) (budget planned : Int) :
    ∃ fits m', m.canAllocate request i budget planned = .ok (fits, m') ∧ Accounted size m' ∧ Evicts m m' ∧
      (fits = true → size f.identifier + planned ≤ m'.numFreeSlots) := by
  unfold canAllocate
  rw [getNumEncoderEmbeds_eq hsize hf, ok_bind]
  simp only
  split_ifs with hbudget hfree hfreeable
  · exact ⟨false, m, rfl, ha, .refl m, by simp⟩
  · exact ⟨true, m, rfl, ha, .refl m, fun _ => hfree⟩
  · exact ⟨false, m, rfl, ha, .refl m, by simp⟩
  · obtain ⟨m', hok, ha', hev, hneed⟩ := evictLoop_ok rfl ha (Int.not_lt.1 hfreeable)
    exact ⟨true, m', by rw [hok]; rfl, ha', hev, fun _ => hneed⟩

theorem allocate_ok (hf : request.mmFeatures[i]? = some f) (hroom : (size f.identifier : Int) ≤ m.numFreeSlots)
    (hnew : m.cached.get? f.identifier = none) :
    ∃ m', m.allocate request i = .ok m' ∧ Accounted size m' ∧ m'.cacheSize = m.cacheSize ∧
      m'.numFreeSlots = m.numFreeSlots - size f.identifier ∧
      ∀ h, m'.cached.contains h = true → h = f.identifier ∨ m.cached.contains h = true := by
  have hfreeable : (size f.identifier : Int) ≤ m.numFreeableSlots := by
    have := ha.freeableSlots
    omega
  unfold allocate
  rw [mmFeature_eq_ok.2 hf, ok_bind, getNumEncoderEmbeds_eq hsize hf, ok_bind,
    ensure, if_pos hroom, ok_bind, ensure, if_pos hfreeable, ok_bind]
  refine ⟨_, rfl, (ha.allocated hnew (insertNew_ne_nil request.requestId _)).congr rfl rfl rfl rfl rfl,
    rfl, rfl, fun h hh => ?_⟩
  simp only [reference, Dict.contains, get?_set] at hh
  split_ifs at hh with heq
  · exact .inl heq
  · exact .inr hh

theorem freeEncoderInput_ok (h : m.freeEncoderInput request i = .ok m') : Accounted size m' ∧ Keeps m m' := by
  simp only [freeEncoderInput, bind_eq_ok] at h
  obtain ⟨f, hf, h⟩ := h
  have hf := mmFeature_eq_ok.1 hf
  -- the record of the request's inputs is no part of the accounts
  obtain ⟨m₁, hm₁, ha₁, hsame, hcached⟩ : ∃ m₁, m.forgetInput request.requestId i = m₁ ∧ Accounted size m₁ ∧
      Keeps m m₁ ∧
      m₁.cached = m.cached := by
    refine ⟨_, rfl, ?_⟩
    unfold forgetInput
    split
    · exact ⟨ha, .refl m, rfl⟩
    · exact ⟨ha.congr rfl rfl rfl rfl rfl, ⟨rfl, rfl, fun _ => rfl⟩, rfl⟩
  rw [hm₁] at h
  split_ifs at h with hnil hstill
  · exact pure_eq_ok.1 h ▸ ⟨ha₁, hsame⟩
  · exact pure_eq_ok.1 h ▸ ⟨ha₁, hsame⟩
  · obtain rfl := pure_eq_ok.1 h
    rw [Dict.getD] at hnil ⊢
    cases hc : m₁.cached.get? f.identifier with
    | none => simp [hc] at hnil
    | some refs =>
      rw [hc, getD_some] at hnil
      have hne : refs ≠ [] := by simpa using hnil
      have hin : m₁.cached.contains f.identifier = true := by rw [Dict.contains, hc]; rfl
      rw [getD_some, dropReference, hsize f (mem_of_getElem? hf)]
      split_ifs with hlast
      · rw [List.isEmpty_iff.1 hlast]
        exact ⟨ha₁.released hc hne, hsame.trans ⟨rfl, rfl, contains_set hin _⟩⟩
      · exact ⟨ha₁.rewrite hc hne (by simpa using hlast), hsame.trans ⟨rfl, rfl, contains_set hin _⟩⟩

theorem free_ok (h : m.free request = .ok m') : Accounted size m' ∧ Keeps m m' := by
  refine foldlM_inv (P := fun m' => Accounted size m' ∧ Keeps m m') ?_ h ⟨ha, .refl m⟩
  rintro i - x y ⟨hx, hkeeps⟩ hstep
  obtain ⟨hy, hkeeps'⟩ := freeEncoderInput_ok hx hsize hstep
  exact ⟨hy, hkeeps.trans hkeeps'⟩

end

end Calls

/-! ### Runs -/

structure Item (η : Type) where
  request : Request η
  inputId : Nat
  feature : MultiModalFeatureSpec
  has : request.mmFeatures[inputId]? = some feature

/-- The manager in the middle of a scheduling pass, with the items that fit and are not allocated yet. -/
structure Planning (η : Type) where
  manager : EncoderCacheManager
  planned : List (Item η) := []

namespace Planning
variable {x : Item η}

def mmHashesToSchedule (c : Planning η) : List Nat := c.planned.map fun x => x.feature.identifier

def numEmbedsToSchedule (c : Planning η) : Nat := (c.planned.map fun x => x.feature.mmPosition.getNumEmbeds).sum

inductive Step (size : Nat → Nat) : Planning η → Planning η → Prop
  | check {c : Planning η} (x : Item η) (hit : Bool) (m : EncoderCacheManager) (hsize : SizedBy size x.request)
      (h : c.manager.checkAndUpdateCache x.request x.inputId = .ok (hit, m)) : Step size c { c with manager := m }
  /-- `can_allocate`, for an item that is neither planned nor cached -/
  | canAllocate {c : Planning η} (x : Item η) (budget : Int) (fits : Bool) (m : EncoderCacheManager)
      (hsize : SizedBy size x.request) (hnew : x.feature.identifier ∉ c.mmHashesToSchedule)
      (hmiss : c.manager.checkAndUpdateCache x.request x.inputId = .ok (false, c.manager))
      (h : c.manager.canAllocate x.request x.inputId budget c.numEmbedsToSchedule = .ok (fits, m)) :
      Step size c ⟨m, if fits then c.planned ++ [x] else c.planned⟩
  /-- `allocate`, for a planned item -/
  | allocate {c : Planning η} (a : List (Item η)) (x : Item η) (b : List (Item η)) (m : EncoderCacheManager)
      (hx : c.planned = a ++ x :: b) (h : c.manager.allocate x.request x.inputId = .ok m) : Step size c ⟨m, a ++ b⟩
  /-- items are not scheduled after all -/
  | giveUp {c : Planning η} (l : List (Item η)) (hl : l.Sublist c.planned) : Step size c { c with planned := l }
  | freeEncoderInput {c : Planning η} (request : Request η) (i : Nat) (m : EncoderCacheManager)
      (hsize : SizedBy size request) (h : c.manager.freeEncoderInput request i = .ok m) :
      Step size c { c with manager := m }
  | free {c : Planning η} (request : Request η) (m : EncoderCacheManager) (hsize : SizedBy size request)
      (h : c.manager.free request = .ok m) : Step size c { c with manager := m }
  | getFreedMmHashes {c : Planning η} : Step size c { c with manager := c.manager.getFreedMmHashes.2 }
  | reset {c : Planning η} : Step size c ⟨c.manager.reset, []⟩

/-- Beside the accounts: the planned items are new, distinct, and fit together. -/
structure Accounted (size : Nat → Nat) (cacheSize : Nat) (c : Planning η) : Prop where
  manager : EncoderCacheManager.Accounted size c.manager
  cacheSize : c.manager.cacheSize = cacheSize
  sized : ∀ x ∈ c.planned, SizedBy size x.request
  distinct : c.mmHashesToSchedule.Nodup
  new : ∀ h ∈ c.mmHashesToSchedule, c.manager.cached.contains h = false
  room : (c.numEmbedsToSchedule : Int) ≤ c.manager.numFreeSlots

variable {cacheSize : Nat} {c c' : Planning η}

theorem numEmbeds_of_split {a b : List (Item η)} (hx : c.planned = a ++ x :: b) (m : EncoderCacheManager) :
    c.numEmbedsToSchedule = x.feature.mmPosition.getNumEmbeds + (⟨m, a ++ b⟩ : Planning η).numEmbedsToSchedule := by
  simp only [numEmbedsToSchedule, hx, map_append, map_cons, sum_append, sum_cons]
  omega

section
variable (hc : c.Accounted size cacheSize)
include hc

theorem Accounted.move {m : EncoderCacheManager} (hm : EncoderCacheManager.Accounted size m)
    (hkeeps : Keeps c.manager m) : Accounted size cacheSize { c with manager := m } where
  manager := hm
  cacheSize := hkeeps.size.trans hc.cacheSize
  sized := hc.sized
  distinct := hc.distinct
  new h hh := (hkeeps.cached h).trans (hc.new h hh)
  room := hkeeps.free ▸ hc.room

theorem Accounted.plan {m : EncoderCacheManager} (hsize : SizedBy size x.request)
    (hnew : x.feature.identifier ∉ c.mmHashesToSchedule)
    (hmiss : c.manager.cached.contains x.feature.identifier = false) (hm : EncoderCacheManager.Accounted size m)
    (hev : Evicts c.manager m) (hroom : (size x.feature.identifier + c.numEmbedsToSchedule : Int) ≤ m.numFreeSlots) :
    Accounted size cacheSize ⟨m, c.planned ++ [x]⟩ where
  manager := hm
  cacheSize := hev.size.trans hc.cacheSize
  sized y hy := by
    rcases mem_append.1 hy with hy | hy
    · exact hc.sized y hy
    · rw [mem_singleton.1 hy]
      exact hsize
  distinct := by
    simp only [mmHashesToSchedule, map_append, map_cons, map_nil]
    exact hc.distinct.append (nodup_singleton _) (by simpa using hnew)
  new h hh := by
    simp only [mmHashesToSchedule, map_append, map_cons, map_nil, mem_append, mem_singleton] at hh
    have hold : c.manager.cached.contains h = false := by
      rcases hh with hh | rfl
      · exact hc.new h hh
      · exact hmiss
    rw [Dict.contains] at hold ⊢
    cases hget : m.cached.get? h with
    | none => rfl
    | some refs =>
      rw [hev.cached h refs hget] at hold
      cases hold
  room := by
    have := hsize x.feature (mem_of_getElem? x.has)
    simp only [numEmbedsToSchedule, map_append, map_cons, map_nil, sum_append, sum_cons, sum_nil]
      at hroom ⊢
    omega

theorem Accounted.refuse {m : EncoderCacheManager} (hm : EncoderCacheManager.Accounted size m)
    (hev : Evicts c.manager m) : Accounted size cacheSize { c with manager := m } where
  manager := hm
  cacheSize := hev.size.trans hc.cacheSize
  sized := hc.sized
  distinct := hc.distinct
  new h hh := by
    have hold := hc.new h hh
    rw [Dict.contains] at hold ⊢
    cases hget : m.cached.get? h with
    | none => rfl
    | some refs =>
      rw [hev.cached h refs hget] at hold
      cases hold
  room := hc.room.trans hev.free

theorem Accounted.allocate {a b : List (Item η)} (hx : c.planned = a ++ x :: b) :
    ∃ m, c.manager.allocate x.request x.inputId = .ok m ∧ Accounted size cacheSize ⟨m, a ++ b⟩ := by
  have hmem : x ∈ c.planned := hx ▸ by simp
  have hsize := hc.sized x hmem
  have hn := hsize x.feature (mem_of_getElem? x.has)
  have hle := numEmbeds_of_split hx c.manager
  have hnot := hc.new _ (mem_map_of_mem hmem)
  have hroom := hc.room
  have hnodup := hc.distinct
  simp only [mmHashesToSchedule, hx, map_append, map_cons] at hnodup
  rw [nodup_middle, nodup_cons, ← map_append] at hnodup
  obtain ⟨m, hok, hm, hcache, hfree, hin⟩ := allocate_ok hc.manager hsize x.has (by omega)
    (by simpa [Dict.contains] using hnot)
  have hsplit := numEmbeds_of_split hx m
  refine ⟨m, hok, hm, hcache.trans hc.cacheSize, fun y hy => hc.sized y ?_, hnodup.2, fun h hh => ?_, ?_⟩
  · rw [hx]
    simp only [mem_append, mem_cons] at hy ⊢
    exact hy.imp_right .inr
  · rw [Bool.eq_false_iff]
    intro hcon
    rcases hin h hcon with rfl | hcon
    · exact hnodup.1 hh
    · rw [hc.new h] at hcon
      · cases hcon
      · simp only [mmHashesToSchedule, hx, map_append, map_cons, mem_append, mem_cons] at hh ⊢
        exact hh.imp_right .inr
  · simp only at hsplit ⊢
    omega

theorem Accounted.giveUp {l : List (Item η)} (hl : l.Sublist c.planned) :
    Accounted size cacheSize { c with planned := l } where
  manager := hc.manager
  cacheSize := hc.cacheSize
  sized x hx := hc.sized x (hl.subset hx)
  distinct := hc.distinct.sublist (hl.map _)
  new h hh := hc.new h ((hl.map _).subset hh)
  room := by
    have hle := (hl.map fun x : Item η => x.feature.mmPosition.getNumEmbeds).sum_le_sum (fun _ _ => Nat.zero_le _)
    have := hc.room
    simp only [numEmbedsToSchedule] at this ⊢
    omega

end

theorem Step.accounted (h : Step size c c') (hc : c.Accounted size cacheSize) : c'.Accounted size cacheSize := by
  cases h with
  | check x hit m hsize h =>
    obtain ⟨hit', m', hok, hm, hkeeps, -⟩ := checkAndUpdateCache_ok hc.manager x.has
    cases h.symm.trans hok
    exact hc.move hm hkeeps
  | canAllocate x budget fits m hsize hnew hmiss h =>
    obtain ⟨fits', m', hok, hm, hev, hroom⟩ := canAllocate_ok hc.manager hsize x.has budget c.numEmbedsToSchedule
    cases h.symm.trans hok
    obtain ⟨hit, m₀, hlook, -, -, hhit, -⟩ := checkAndUpdateCache_ok hc.manager x.has
    cases hmiss.symm.trans hlook
    cases fits with
    | true => exact hc.plan hsize hnew hhit.symm hm hev (hroom rfl)
    | false => exact hc.refuse hm hev
  | allocate a x b m hx h =>
    obtain ⟨m', hok, hm⟩ := hc.allocate hx
    cases h.symm.trans hok
    exact hm
  | giveUp l hl => exact hc.giveUp hl
  | freeEncoderInput request i m hsize h =>
    obtain ⟨hm, hkeeps⟩ := freeEncoderInput_ok hc.manager hsize h
    exact hc.move hm hkeeps
  | free request m hsize h =>
    obtain ⟨hm, hkeeps⟩ := free_ok hc.manager hsize h
    exact hc.move hm hkeeps
  | getFreedMmHashes => exact hc.move (hc.manager.congr rfl rfl rfl rfl rfl) ⟨rfl, rfl, fun _ => rfl⟩
  | reset =>
    refine ⟨.start size _, hc.cacheSize, by simp, by simp [mmHashesToSchedule], by simp [mmHashesToSchedule], ?_⟩
    rw [EncoderCacheManager.reset, hc.cacheSize]
    exact Int.natCast_nonneg _

theorem accounted_of_run {cacheSize : Nat} (h : Relation.ReflTransGen (Step size) ⟨.init cacheSize, []⟩ c) :
    c.Accounted size cacheSize := by
  induction h with
  | refl =>
    exact ⟨.start size cacheSize, rfl, by simp, by simp [mmHashesToSchedule], by simp [mmHashesToSchedule],
      Int.natCast_nonneg _⟩
  | tail _ hstep ih => exact hstep.accounted ih

/-- In every state of a run the counters agree with the entries and the freeable items are the unreferenced
ones; planned items can be allocated, lookups and `can_allocate` do not fail, and no referenced item is evicted. -/
theorem encoderCache_accounted {cacheSize : Nat} (h : Relation.ReflTransGen (Step size) ⟨.init cacheSize, []⟩ c) :
    c.manager.numFreeSlots + (c.manager.cached.total fun h _ => size h : Nat) = cacheSize ∧
    c.manager.numFreeableSlots = c.manager.numFreeSlots + (c.manager.freeable.total fun h _ => size h : Nat) ∧
    (∀ h, h ∈ c.manager.freeable.keys ↔ c.manager.cached.get? h = some []) ∧
    (∀ x ∈ c.planned, ∃ m, c.manager.allocate x.request x.inputId = .ok m) ∧
    ∀ x : Item η, SizedBy size x.request →
      (∃ hit m, c.manager.checkAndUpdateCache x.request x.inputId = .ok (hit, m)) ∧
      ∀ budget planned, ∃ fits m, c.manager.canAllocate x.request x.inputId budget planned = .ok (fits, m) ∧
        ∀ h refs, refs ≠ [] → c.manager.cached.get? h = some refs → m.cached.get? h = some refs := by
  have hc := accounted_of_run h
  refine ⟨hc.cacheSize ▸ hc.manager.slots, hc.manager.freeableSlots, fun h => ?_, fun x hx => ?_,
    fun x hsize => ⟨?_, ?_⟩⟩
  · rw [Dict.mem_keys]
    exact hc.manager.unreferenced h
  · obtain ⟨a, b, hsplit⟩ := append_of_mem hx
    obtain ⟨m, hok, -⟩ := hc.allocate hsplit
    exact ⟨m, hok⟩
  · obtain ⟨hit, m, hok, -⟩ := checkAndUpdateCache_ok hc.manager x.has
    exact ⟨hit, m, hok⟩
  · intro budget planned
    obtain ⟨fits, m, hok, -, hev, -⟩ := canAllocate_ok hc.manager hsize x.has budget planned
    exact ⟨fits, m, hok, hev.referenced⟩

def someItem (r h : Nat) : Item Nat :=
  ⟨{ requestId := r, mmFeatures := [⟨h, ⟨0, 3, none⟩⟩] }, 0, ⟨h, ⟨0, 3, none⟩⟩, rfl⟩

theorem someItem_sized (r h : Nat) : SizedBy (fun _ => 3) (someItem r h).request := by
  intro f hf
  obtain rfl := mem_singleton.1 hf
  rfl

/-- With four slots, one item is planned, allocated and released, and a second one evicts it. -/
theorem encoderCache_accounted_evicting : ∃ c : Planning Nat, c.manager.freed = [7] ∧ c.manager.freeable.keys = [] ∧
    c.manager.numFreeSlots + (c.manager.cached.total fun _ _ => 3 : Nat) = 4 := by
  exact ⟨_, by rfl, by rfl, (encoderCache_accounted (((((Relation.ReflTransGen.refl.tail
      (.canAllocate (someItem 0 7) 10 true _ (someItem_sized 0 7) (by decide) rfl rfl)).tail
      (.allocate [] (someItem 0 7) [] _ rfl rfl)).tail (.free (someItem 0 7).request _ (someItem_sized 0 7) rfl)).tail
      (.canAllocate (someItem 1 8) 10 true _ (someItem_sized 1 8) (by decide) rfl rfl)).tail
      (.allocate [] (someItem 1 8) [] _ rfl rfl))).1⟩

end Planning

end EncoderCacheManager

end VllmCore
