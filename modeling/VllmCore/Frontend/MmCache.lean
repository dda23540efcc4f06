import VllmCore.Lib.Except
import VllmCore.Lib.LRUCache

/-! # Multi-modal caches of the front end (P0) and of the engine (P1)

P0 keeps the sizes of what P1 caches and sends an item without its data if it believes P1 has it. P0 walks a request
modality by modality, P1 by position. As long as the two walks agree and the items of each request fit together, the
two caches stay mirrored; otherwise they drift, and one retry repairs the drift unless P1 meets a repeated item in
another order than P0 did. -/

namespace List
variable {α : Type*} (r : α → α → Prop) [DecidableRel r] [IsTrans α r]

theorem filter_orderedInsert (p : α → Bool) (a : α) {l : List α} (h : l.Pairwise r) :
    (l.orderedInsert r a).filter p = if p a then (l.filter p).orderedInsert r a else l.filter p := by
  induction l with
  | nil => cases hp : p a <;> simp [hp]
  | cons b l ih =>
    obtain ⟨hb, hl⟩ := pairwise_cons.1 h
    by_cases hab : r a b
    · rw [orderedInsert_cons_of_le r l hab]
      cases hp : p a with
      | false => simp [hp]
      | true =>
        -- `a` stays below what is left of the list
        have hle : ∀ c ∈ (b :: l).filter p, r a c := by
          intro c hc
          rcases mem_cons.1 (mem_of_mem_filter hc) with rfl | hc
          · exact hab
          · exact IsTrans.trans a b c hab (hb c hc)
        rw [filter_cons_of_pos hp, if_pos rfl]
        generalize (b :: l).filter p = m at hle
        cases m with
        | nil => rfl
        | cons c m => rw [orderedInsert_cons_of_le r m (hle c mem_cons_self)]
    · rw [orderedInsert_of_not_le r l hab, filter_cons, filter_cons, ih hl]
      cases p b <;> cases p a <;> simp [hab]

/-- The sort is stable: what a filter keeps is sorted as if alone. -/
theorem filter_insertionSort [Std.Total r] (p : α → Bool) (l : List α) :
    (l.insertionSort r).filter p = (l.filter p).insertionSort r := by
  induction l with
  | nil => rfl
  | cons a l ih =>
    rw [insertionSort_cons, filter_orderedInsert r p a (pairwise_insertionSort r l), ih, filter_cons]
    split <;> rfl

end List

namespace VllmCore
open Dict List

abbrev MmHash := Nat

/-- An item of a request: its hash, which stands for its data, and the offset of its placeholder. -/
structure MmItem where
  mmHash : MmHash
  offset : Nat

structure MmFeature (δ : Type) where
  mmHash : MmHash
  offset : Nat
  data : Option δ

def MmFeature.item {δ : Type} (f : MmFeature δ) : MmItem := ⟨f.mmHash, f.offset⟩

abbrev MmItems := Dict String (List MmItem)

def MmItems.walk (items : MmItems) : List MmItem := items.values.flatten

def MmItems.hashes (items : MmItems) : List MmHash := items.walk.map MmItem.mmHash

/-- `argsort_mm_positions`. -/
def MmItems.byPosition (items : MmItems) : List MmItem := items.walk.insertionSort fun a b => a.offset ≤ b.offset

/-- `is_cached`, asked for all items before any is visited. -/
def MmItems.isCached (items : MmItems) (c : Dict MmHash Nat) : List (MmItem × Bool) :=
  items.walk.map fun x => (x, c.contains x.mmHash)

inductive MmError where
  /-- the assertion "Expected a cached item" of P0 -/
  | expectedCachedItem (mmHash : MmHash)
  /-- `MultiModalCacheMissError` of P1 -/
  | cacheMiss (mmHashes : List MmHash)
deriving DecidableEq

section Model
variable {δ : Type} (size : δ → Nat) (capacity : Nat) (content : MmHash → δ)

def MmItems.filled (items : MmItems) : List (MmHash × Option δ) :=
  items.byPosition.map fun x => (x.mmHash, some (content x.mmHash))

variable [SetItem.{0, 0} MmHash]

namespace SenderCache

/-- `get_and_update_item`; the cache holds item sizes. -/
def getAndUpdateItem (c : Dict MmHash Nat) (item : Option δ) (h : MmHash) :
    Except MmError (Option δ × Dict MmHash Nat) :=
  match c.get? h, item with
  | some _, _ => .ok (none, c.moveToEnd h)
  | none, none => .error (.expectedCachedItem h)
  | none, some d => .ok (some d, c.putIfFits id capacity h (size d))

/-- The second loop of `_merge_mm_kwargs`, over the items and whether they were cached. -/
def mergeItems : List (MmItem × Bool) → Dict MmHash Nat → Except MmError (List (MmFeature δ) × Dict MmHash Nat)
  | [], c => .ok ([], c)
  | (x, isCached) :: xs, c => do
    let r ← getAndUpdateItem size capacity c (if isCached then none else some (content x.mmHash)) x.mmHash
    let rest ← mergeItems xs r.2
    pure (⟨x.mmHash, x.offset, r.1⟩ :: rest.1, rest.2)

/-- `_get_cache_missing_items`, `_merge_mm_kwargs` and the sort of the features by position. -/
def send (c : Dict MmHash Nat) (items : MmItems) : Except MmError (List (MmFeature δ) × Dict MmHash Nat) := do
  let r ← mergeItems size capacity content (items.isCached c) (items.hashes.foldl Dict.moveToEnd c)
  pure (r.1.insertionSort fun a b => a.offset ≤ b.offset, r.2)

end SenderCache

namespace ReceiverCache

/-- `get_and_update_item`; no data stands for the error. -/
def getAndUpdateItem (c : Dict MmHash δ) (item : Option δ) (h : MmHash) : Option δ × Dict MmHash δ :=
  match c.get? h, item with
  | some d, _ => (some d, c.moveToEnd h)
  | none, none => (none, c)
  | none, some d => (some d, c.putIfFits size capacity h d)

def updateItems : List (MmFeature δ) → Dict MmHash δ → List (MmHash × Option δ) × Dict MmHash δ
  | [], c => ([], c)
  | f :: fs, c =>
    let r := getAndUpdateItem size capacity c f.data f.mmHash
    let rest := updateItems fs r.2
    ((f.mmHash, r.1) :: rest.1, rest.2)

def missing (out : List (MmHash × Option δ)) : List MmHash := (out.filter fun e => e.2.isNone).map Prod.fst

/-- `get_and_update_features`: the data of the features, or all missing hashes. -/
def getAndUpdateFeatures (c : Dict MmHash δ) (fs : List (MmFeature δ)) :
    Except (List MmHash) (List (MmHash × Option δ)) × Dict MmHash δ :=
  let r := updateItems size capacity fs ((fs.map MmFeature.mmHash).foldl Dict.moveToEnd c)
  (if missing r.1 = [] then .ok r.1 else .error (missing r.1), r.2)

end ReceiverCache

structure MmCaches (δ : Type) where
  p0 : Dict MmHash Nat := Dict.empty
  p1 : Dict MmHash δ := Dict.empty

namespace MmCaches

def process (s : MmCaches δ) (items : MmItems) : Except MmError (List (MmHash × Option δ) × MmCaches δ) := do
  let sent ← SenderCache.send size capacity content s.p0 items
  match ReceiverCache.getAndUpdateFeatures size capacity s.p1 sent.1 with
  | (.ok out, p1) => pure (out, ⟨sent.2, p1⟩)
  | (.error hs, _) => .error (.cacheMiss hs)

def run : List MmItems → MmCaches δ → Except MmError (List (List (MmHash × Option δ)) × MmCaches δ)
  | [], s => .ok ([], s)
  | items :: rest, s => do
    let r ← process size capacity content s items
    let rs ← run rest r.2
    pure (r.1 :: rs.1, rs.2)

end MmCaches

end Model

/-! ### One item -/

section Steps
open SenderCache (mergeItems send)
open ReceiverCache (updateItems missing getAndUpdateFeatures)
variable {δ : Type} {size : δ → Nat} {capacity : Nat} {content : MmHash → δ} {xs : List (MmItem × Bool)}
  {s : MmCaches δ} {items : MmItems} {isCached : Bool} {c c' : Dict MmHash Nat} {h : MmHash} {β : Type}
  {fs : List (MmFeature δ)}

theorem get?_touch (hs : List MmHash) (c : Dict MmHash β) (h : MmHash) :
    (hs.foldl Dict.moveToEnd c).get? h = c.get? h := by
  induction hs generalizing c with
  | nil => rfl
  | cons a hs ih => rw [foldl_cons, ih, get?_moveToEnd]

def MmItems.InOrder (items : MmItems) : Prop := items.walk.Pairwise fun a b => a.offset ≤ b.offset

theorem MmItems.mem_hashes_of_isCached (items : MmItems) (c : Dict MmHash Nat) :
    ∀ x ∈ items.isCached c, x.1.mmHash ∈ items.hashes := by
  intro x hx
  obtain ⟨y, hy, rfl⟩ := mem_map.1 hx
  exact mem_map_of_mem hy

theorem MmItems.map_fst_isCached (items : MmItems) (c : Dict MmHash Nat) :
    (items.isCached c).map Prod.fst = items.walk := by
  rw [MmItems.isCached, map_map]
  exact map_id _

theorem MmItems.isSome_of_isCached (items : MmItems) (c : Dict MmHash Nat) :
    ∀ x ∈ items.isCached c, x.2 = true → ((items.hashes.foldl Dict.moveToEnd c).get? x.1.mmHash).isSome := by
  intro x hx hc
  obtain ⟨y, -, rfl⟩ := mem_map.1 hx
  rw [get?_touch]
  exact hc

theorem get?_getOrPut_isSome {c c' : Dict MmHash β} {x : MmHash} {v : Option β}
    (hget : c'.get? x = if x = h then (c.get? h).or v else c.get? x) (hx : (c.get? x).isSome) : (c'.get? x).isSome := by
  rw [hget]
  split
  · next heq =>
    rw [heq] at hx
    rw [Option.isSome_or, hx]
    rfl
  · exact hx

/-- The caches agree on keys and sizes; P0's sizes are those of the data. -/
structure MmCaches.Mirrored (size : δ → Nat) (capacity : Nat) (content : MmHash → δ) (s : MmCaches δ) : Prop where
  shadow : s.p0.shadow id = s.p1.shadow size
  sizes : s.p0.Caches id capacity fun h => size (content h)
  contents : s.p1.Caches size capacity content

theorem MmCaches.Mirrored.touch (hs : s.Mirrored size capacity content) (hashes : List MmHash) :
    MmCaches.Mirrored size capacity content
      ⟨hashes.foldl Dict.moveToEnd s.p0, hashes.foldl Dict.moveToEnd s.p1⟩ := by
  refine ⟨?_, fun h n hn => hs.sizes h n ((get?_touch ..).symm.trans hn),
    fun h d hd => hs.contents h d ((get?_touch ..).symm.trans hd)⟩
  obtain ⟨p0, p1⟩ := s
  have hshadow := hs.shadow
  clear hs
  induction hashes generalizing p0 p1 with
  | nil => exact hshadow
  | cons h hashes ih => exact ih _ _ (shadow_moveToEnd hshadow h)

theorem MmCaches.mirrored_init : MmCaches.Mirrored size capacity content {} := ⟨rfl, nofun, nofun⟩

def MmItems.Orderly (size : δ → Nat) (capacity : Nat) (content : MmHash → δ) (items : MmItems) : Prop :=
  items.InOrder ∧ Dict.FitsAll size capacity content items.hashes

section
variable [SetItem.{0, 0} MmHash]

theorem SenderCache.getAndUpdateItem_eq (hcached : isCached = true → (c.get? h).isSome) :
    getAndUpdateItem size capacity c (if isCached then none else some (content h)) h =
      .ok (if (c.get? h).isSome then none else some (content h),
        c.getOrPut id capacity h (some (size (content h)))) := by
  unfold getAndUpdateItem Dict.getOrPut
  generalize c.get? h = cached at hcached
  rcases cached with _ | n <;> rcases isCached with _ | _
  · rfl
  · cases hcached rfl
  · rfl
  · rfl

theorem ReceiverCache.getAndUpdateItem_eq (c : Dict MmHash δ) (item : Option δ) (h : MmHash) :
    getAndUpdateItem size capacity c item h = ((c.get? h).or item, c.getOrPut size capacity h item) := by
  unfold getAndUpdateItem Dict.getOrPut
  rcases c.get? h with _ | d <;> rcases item with _ | d' <;> rfl

theorem SenderCache.mergeItems_cons {x : MmItem} (hcached : isCached = true → (c.get? x.mmHash).isSome)
    (hrest : mergeItems size capacity content xs (c.getOrPut id capacity x.mmHash (some (size (content x.mmHash)))) =
      .ok (fs, c')) : mergeItems size capacity content ((x, isCached) :: xs) c =
      .ok (⟨x.mmHash, x.offset, if (c.get? x.mmHash).isSome then none else some (content x.mmHash)⟩ :: fs, c') := by
  rw [mergeItems, getAndUpdateItem_eq hcached, Except.ok_bind, hrest]
  rfl

theorem ReceiverCache.updateItems_cons (c : Dict MmHash δ) (f : MmFeature δ) (fs : List (MmFeature δ)) :
    updateItems size capacity (f :: fs) c =
      ((f.mmHash, (c.get? f.mmHash).or f.data) :: (updateItems
        size capacity fs (c.getOrPut size capacity f.mmHash f.data)).1,
        (updateItems size capacity fs (c.getOrPut size capacity f.mmHash f.data)).2) := by
  rw [updateItems, getAndUpdateItem_eq]

/-! ### Requests walked in one order -/

variable {R : List MmHash} {p0 : Dict MmHash Nat}

theorem mirrored_loop (hfits : Dict.FitsAll size capacity content R) (hs : s.Mirrored size capacity content)
    (hp0 : Dict.Recent R s.p0) (hp1 : Dict.Recent R s.p1) (hR : ∀ x ∈ xs, x.1.mmHash ∈ R)
    (hcached : ∀ x ∈ xs, x.2 = true → (s.p0.get? x.1.mmHash).isSome) :
    ∃ fs p0, mergeItems size capacity content xs s.p0 = .ok (fs, p0) ∧
      fs.map MmFeature.item = xs.map Prod.fst ∧
      (updateItems size capacity fs s.p1).1 = xs.map (fun x => (x.1.mmHash, some (content x.1.mmHash))) ∧
      MmCaches.Mirrored size capacity content ⟨p0, (updateItems size capacity fs s.p1).2⟩ := by
  induction xs generalizing s with
  | nil => exact ⟨[], s.p0, rfl, rfl, rfl, hs⟩
  | cons x xs ih =>
    obtain ⟨⟨h, offset⟩, isCached⟩ := x
    have hk : h ∈ R := hR _ mem_cons_self
    have hkeys : s.p0.get? h = none ↔ s.p1.get? h = none := by
      rw [get?_eq_none_iff, get?_eq_none_iff, keys_eq_of_shadow hs.shadow]
    let data : Option δ := if (s.p0.get? h).isSome then none else some (content h)
    have hdata : ∀ y ∈ data, y = content h := by
      intro y hy
      simp only [data] at hy
      split at hy
      · cases hy
      · exact (Option.some.inj hy).symm
    -- P1 has the data, or gets it now
    have hout : (s.p1.get? h).or data = some (content h) := by
      rcases hp : s.p1.get? h with _ | d
      · simp [data, hkeys.2 hp]
      · rw [(hs.contents h d hp).1]
        rfl
    have hfits0 : Dict.FitsAll id capacity (fun h => size (content h)) R := hfits
    obtain ⟨hp0', hsizes, hget⟩ := hp0.getOrPut hfits0 hs.sizes hk (v := some (size (content h))) (by simp)
    obtain ⟨hp1', hcontents, -⟩ := hp1.getOrPut hfits hs.contents hk hdata
    have hshadow : (s.p0.getOrPut id capacity h (some (size (content h)))).shadow id =
        (s.p1.getOrPut size capacity h data).shadow size :=
      shadow_getOrPut hs.shadow h fun hnone => by simp [data, hnone]
    obtain ⟨fs, p0, hmerge, hfs, hupdate, hmirror⟩ := ih (s := ⟨_, _⟩) ⟨hshadow, hsizes, hcontents⟩ hp0' hp1'
      (fun x hx => hR x (mem_cons_of_mem _ hx)) fun x hx hc =>
        get?_getOrPut_isSome (hget _ (hR x (mem_cons_of_mem _ hx))) (hcached x (mem_cons_of_mem _ hx) hc)
    refine ⟨⟨h, offset, data⟩ :: fs, p0, ?_, ?_, ?_, ?_⟩
    · exact SenderCache.mergeItems_cons (hcached _ mem_cons_self) hmerge
    · rw [map_cons, map_cons, hfs]
      rfl
    · rw [ReceiverCache.updateItems_cons]
      exact cons_eq_cons.2 ⟨congrArg (Prod.mk h) hout, hupdate⟩
    · rw [ReceiverCache.updateItems_cons]
      exact hmirror

/-- A request walked in order: nothing is raised, every feature is filled, and the caches stay mirrored. -/
theorem MmCaches.Mirrored.process (hs : s.Mirrored size capacity content) (horder : items.InOrder)
    (hfits : Dict.FitsAll size capacity content items.hashes) :
    ∃ s', s.process size capacity content items = .ok (items.filled content, s') ∧
    s'.Mirrored size capacity content := by
  obtain ⟨fs, p0, hmerge, hfs, hupdate, hmirror⟩ := mirrored_loop hfits (hs.touch items.hashes)
    (recent_touch ..) (recent_touch ..) (items.mem_hashes_of_isCached s.p0) (items.isSome_of_isCached s.p0)
  rw [items.map_fst_isCached] at hfs
  rw [MmItems.isCached, map_map] at hupdate
  have hhashes : fs.map MmFeature.mmHash = items.hashes := by
    rw [MmItems.hashes, ← hfs, map_map]
    rfl
  -- neither the items nor the features move in the sort
  have hsorted : fs.Pairwise fun a b => a.offset ≤ b.offset := by
    rw [MmItems.InOrder, ← hfs, pairwise_map] at horder
    exact horder
  have hfilled : items.filled content = items.walk.map fun x => (x.mmHash, some (content x.mmHash)) := by
    rw [MmItems.filled, MmItems.byPosition, Pairwise.insertionSort_eq horder]
  refine ⟨_, ?_, hmirror⟩
  have hsend : send size capacity content s.p0 items = .ok (fs, p0) := by
    rw [send, hmerge, Except.ok_bind, Pairwise.insertionSort_eq hsorted]
    rfl
  have hnone : missing
      (updateItems size capacity fs (items.hashes.foldl Dict.moveToEnd s.p1)).1 = [] := by
    rw [hupdate]
    simp [missing]
  have hreceive : getAndUpdateFeatures size capacity s.p1 fs =
      (.ok (items.filled content), (updateItems size capacity fs (items.hashes.foldl Dict.moveToEnd s.p1)).2) := by
    unfold getAndUpdateFeatures
    rw [hhashes]
    dsimp only
    rw [if_pos hnone, hupdate, hfilled]
    rfl
  rw [MmCaches.process, hsend, Except.ok_bind, hreceive]
  rfl

theorem MmCaches.Mirrored.run (hs : s.Mirrored size capacity content) {requests : List MmItems}
    (h : ∀ items ∈ requests, items.Orderly size capacity content) :
    ∃ s', MmCaches.run size capacity content requests s = .ok (requests.map (MmItems.filled content), s') ∧
      s'.Mirrored size capacity content := by
  induction requests generalizing s with
  | nil => exact ⟨s, rfl, hs⟩
  | cons items requests ih =>
    obtain ⟨horder, hfits⟩ := h items mem_cons_self
    obtain ⟨s1, hprocess, hs1⟩ := hs.process horder hfits
    obtain ⟨s2, hrun, hs2⟩ := ih hs1 fun items' hmem => h items' (mem_cons_of_mem _ hmem)
    refine ⟨s2, ?_, hs2⟩
    rw [MmCaches.run, hprocess, Except.ok_bind, hrun]
    rfl

/-- From empty caches, requests that are walked in the order of their positions and whose items fit together: nothing
is raised, every feature gets the data of its hash, and both caches end with the same keys. -/
theorem mm_caches_mirrored {requests : List MmItems} (h : ∀ items ∈ requests, items.Orderly size capacity content) :
    ∃ s, MmCaches.run size capacity content requests {} = .ok (requests.map (MmItems.filled content), s) ∧
      s.p0.keys = s.p1.keys := by
  obtain ⟨s, hrun, hs⟩ := MmCaches.mirrored_init.run h
  exact ⟨s, hrun, keys_eq_of_shadow hs.shadow⟩

end

/-- Images and videos of one unit each; the data of a hash is the hash. -/
def mmRequest (images videos : List MmItem) : MmItems := ⟨[("image", images), ("video", videos)], by simp⟩

theorem mm_caches_mirrored_evicting :
    (∀ items ∈ [mmRequest [⟨1, 0⟩] [⟨2, 4⟩], mmRequest [⟨3, 0⟩] []], items.Orderly (fun _ => 1) 2 id) ∧
      ∃ s, MmCaches.run (fun _ => 1) 2 id [mmRequest [⟨1, 0⟩] [⟨2, 4⟩], mmRequest [⟨3, 0⟩] []] {} =
        .ok ([[(1, some 1), (2, some 2)], [(3, some 3)]], s) ∧ s.p0.keys = s.p1.keys := by
  have h : ∀ items ∈ [mmRequest [⟨1, 0⟩] [⟨2, 4⟩], mmRequest [⟨3, 0⟩] []], items.Orderly (fun _ => 1) 2 id := by
    unfold MmItems.Orderly MmItems.InOrder Dict.FitsAll
    decide +kernel
  exact ⟨h, mm_caches_mirrored h⟩

/-- A video placed before an image: P0 and P1 evict different items, and a later request for one of them fails at P1.
Two images with room for one: the first evicts the second, which P0 took for cached. -/
theorem mm_caches_drift : MmCaches.run (fun _ => 1) 2 id
        [mmRequest [⟨1, 5⟩] [⟨2, 0⟩], mmRequest [⟨3, 0⟩] [], mmRequest [⟨2, 0⟩] []] {} = .error (.cacheMiss [2]) ∧
      MmCaches.run (fun _ => 1) 1 id [mmRequest [⟨1, 0⟩] [], mmRequest [⟨2, 0⟩, ⟨1, 1⟩] []] {} =
        .error (.expectedCachedItem 1) :=
  ⟨rfl, rfl⟩

/-! ### One retry -/

def SenderCache.marked (content : MmHash → δ) (isCached : Bool) : List MmItem → List (MmFeature δ)
  | [] => []
  | x :: xs => ⟨x.mmHash, x.offset, if isCached then none else some (content x.mmHash)⟩ ::
      xs.map fun y => ⟨y.mmHash, y.offset, none⟩

open SenderCache (marked)

theorem SenderCache.marked_true (xs : List MmItem) :
    marked content true xs = xs.map fun y => (⟨y.mmHash, y.offset, none⟩ : MmFeature δ) := by
  cases xs <;> rfl

/-- P1 meets the first item that P0 visits with this hash before the others. -/
def MmItems.FirstByPosition (items : MmItems) (h : MmHash) : Prop :=
  ∀ x ∈ items.walk.find? fun x => x.mmHash = h, ∀ y ∈ items.walk, y.mmHash = h → x.offset ≤ y.offset

theorem SenderCache.head_marked (content : MmHash → δ) (isCached : Bool) (x : MmItem) (xs : List MmItem) :
    ∃ f, ((marked content isCached (x :: xs)).insertionSort fun a b => a.offset ≤ b.offset).head? = some f ∧
      (f.data = none ↔ isCached = true ∨ ¬ ∀ y ∈ xs, x.offset ≤ y.offset) := by
  have hsorted := pairwise_insertionSort (fun a b : MmFeature δ => a.offset ≤ b.offset)
      (marked content isCached (x :: xs))
  have hmem : ∀ f, f ∈ (marked content isCached (x :: xs)).insertionSort (fun a b => a.offset ≤ b.offset) ↔
      f ∈ marked content isCached (x :: xs) := fun f => mem_insertionSort _
  by_cases hle : ∀ y ∈ xs, x.offset ≤ y.offset
  · refine ⟨⟨x.mmHash, x.offset, if isCached then none else some (content x.mmHash)⟩, ?_, ?_⟩
    · rw [marked, insertionSort_cons_of_forall_rel]
      · rfl
      · simpa using hle
    · rcases isCached with _ | _
      · simpa using hle
      · simp
  · rcases hl : (marked content isCached (x :: xs)).insertionSort fun a b => a.offset ≤ b.offset with _ | ⟨f, l⟩
    · have hx := (hmem _).2 (by rw [marked]; exact mem_cons_self)
      rw [hl] at hx
      cases hx
    refine ⟨f, by rw [hl]; rfl, iff_of_true ?_ (.inr hle)⟩
    push Not at hle
    obtain ⟨y, hy, hlt⟩ := hle
    -- the head lies at or before `y`, so it is not the feature of `x`
    have hfy : f.offset ≤ y.offset := by
      have hy' : (⟨y.mmHash, y.offset, none⟩ : MmFeature δ) ∈ marked content isCached (x :: xs) :=
        mem_cons_of_mem _ (mem_map_of_mem (f := fun y : MmItem => (⟨y.mmHash, y.offset, none⟩ : MmFeature δ)) hy)
      rw [← hmem, hl] at hy'
      rw [hl] at hsorted
      rcases mem_cons.1 hy' with heq | hmem'
      · rw [← heq]
      · exact (pairwise_cons.1 hsorted).1 _ hmem'
    have hf := (hmem f).1 (hl ▸ mem_cons_self)
    rcases mem_cons.1 hf with rfl | hf
    · exact absurd hfy (Nat.not_le.2 hlt)
    · obtain ⟨z, -, rfl⟩ := mem_map.1 hf
      rfl

theorem MmItems.firstByPosition_iff {x : MmItem} {xs : List MmItem}
    (hwalk : (items.walk.filter fun x => x.mmHash = h) = x :: xs) :
    items.FirstByPosition h ↔ ∀ y ∈ xs, x.offset ≤ y.offset := by
  have hmem : ∀ y, y ∈ items.walk ∧ y.mmHash = h ↔ y = x ∨ y ∈ xs := fun y => by
    rw [← mem_cons, ← hwalk, mem_filter, decide_eq_true_iff]
  rw [MmItems.FirstByPosition, ← head?_filter, hwalk]
  constructor
  · intro hfirst y hy
    obtain ⟨hin, heq⟩ := (hmem y).2 (.inr hy)
    exact hfirst x rfl y hin heq
  · rintro hle _ ⟨⟩ y hin heq
    rcases (hmem y).1 ⟨hin, heq⟩ with rfl | hy
    · exact le_rfl
    · exact hle y hy

theorem SenderCache.data_of_mem_marked {xs : List MmItem} {f : MmFeature δ} (hf : f ∈ marked content isCached xs) :
    ∀ d ∈ f.data, d = content f.mmHash ∧ isCached = false := by
  rcases xs with _ | ⟨x, xs⟩
  · cases hf
  rcases mem_cons.1 hf with rfl | hf
  · rcases isCached with _ | _
    · rintro d ⟨⟩
      exact ⟨rfl, rfl⟩
    · rintro d ⟨⟩
  · obtain ⟨y, -, rfl⟩ := mem_map.1 hf
    rintro d ⟨⟩

theorem ReceiverCache.eq_of_missing_eq_nil {out : List (MmHash × Option δ)} (h : missing out = [])
    (hout : ∀ e ∈ out, ∀ d ∈ e.2, d = content e.1) : out = (out.map Prod.fst).map fun h => (h, some (content h)) := by
  rw [map_map]
  refine (map_id' out).symm.trans (map_congr_left fun e he => ?_)
  rw [missing, map_eq_nil_iff, filter_eq_nil_iff] at h
  obtain ⟨k, _ | d⟩ := e
  · exact absurd rfl (h _ he)
  · rw [hout _ he d rfl]
    rfl

section
variable [SetItem.{0, 0} MmHash]

section Fit
variable (hfits : Dict.FitsAll size capacity content R) (hroom : ∀ h ∈ R, size (content h) ≤ capacity)
include hfits hroom

theorem SenderCache.mergeItems_spec (hc : c.Caches id capacity fun h => size (content h)) (hrecent : Dict.Recent R c)
    (hR : ∀ x ∈ xs, x.1.mmHash ∈ R) (hcached : ∀ x ∈ xs, x.2 = true → (c.get? x.1.mmHash).isSome) :
    ∃ fs c', mergeItems size capacity content xs c = .ok (fs, c') ∧ (c'.Caches id capacity fun h => size (content h)) ∧
      (∀ h ∈ R, (c'.get? h).isSome ↔ (c.get? h).isSome ∨ ∃ x ∈ xs, x.1.mmHash = h) ∧
      fs.map MmFeature.item = xs.map Prod.fst ∧
      ∀ h ∈ R, (fs.filter fun f => f.mmHash = h) =
        marked content (c.get? h).isSome ((xs.map Prod.fst).filter fun x => x.mmHash = h) := by
  induction xs generalizing c with
  | nil => exact ⟨[], c, rfl, hc, fun h _ => by simp, rfl, fun h _ => rfl⟩
  | cons x xs ih =>
    obtain ⟨x, isCached⟩ := x
    have hk : x.mmHash ∈ R := hR _ mem_cons_self
    have hfits0 : Dict.FitsAll id capacity (fun h => size (content h)) R := hfits
    obtain ⟨hrecent', hc', hget⟩ := hrecent.getOrPut hfits0 hc hk (v := some (size (content x.mmHash))) (by simp)
    obtain ⟨fs, c', hmerge, hc'', hpresent, hfs, hfilter⟩ := ih hc' hrecent'
      (fun y hy => hR y (mem_cons_of_mem _ hy)) fun y hy hcd =>
        get?_getOrPut_isSome (hget _ (hR y (mem_cons_of_mem _ hy))) (hcached y (mem_cons_of_mem _ hy) hcd)
    -- the item is cached from now on
    have hself : ((c.getOrPut id capacity x.mmHash (some (size (content x.mmHash)))).get? x.mmHash).isSome := by
      have hid : id (size (content x.mmHash)) ≤ capacity := hroom _ hk
      rw [hget _ hk, if_pos rfl, Option.filter_some, if_pos (decide_eq_true hid), Option.isSome_or, Option.isSome_some,
        Bool.or_true]
    refine ⟨_, c', mergeItems_cons (hcached _ mem_cons_self) hmerge, hc'', fun h hh => ?_, ?_, fun h hh => ?_⟩
    · rw [hpresent h hh]
      by_cases hx : h = x.mmHash
      · subst hx
        simp [hself]
      · rw [hget h hh, if_neg hx]
        simp [Ne.symm hx]
    · rw [map_cons, map_cons, hfs]
      rfl
    · rw [map_cons, filter_cons, filter_cons, hfilter h hh]
      by_cases hx : x.mmHash = h
      · subst hx
        rw [hself, marked_true]
        simp [marked]
      · rw [hget h hh, if_neg (Ne.symm hx)]
        simp [hx]

theorem ReceiverCache.updateItems_spec {c : Dict MmHash δ} (hc : c.Caches size capacity content)
    (hrecent : Dict.Recent R c) (hR : ∀ f ∈ fs, f.mmHash ∈ R) (hdata : ∀ f ∈ fs, ∀ d ∈ f.data, d = content f.mmHash) :
    (updateItems size capacity fs c).2.Caches size capacity content ∧
      (∀ h ∈ R, ((updateItems size capacity fs c).2.get? h).isSome ↔
        (c.get? h).isSome ∨ ∃ f ∈ fs, f.mmHash = h ∧ f.data.isSome) ∧
      (updateItems size capacity fs c).1.map Prod.fst = fs.map MmFeature.mmHash ∧
      (∀ e ∈ (updateItems size capacity fs c).1, ∀ d ∈ e.2, d = content e.1) ∧
      ∀ h ∈ R, h ∈ missing (updateItems size capacity fs c).1 ↔
        ¬ (c.get? h).isSome ∧ ∃ f, fs.find? (fun f => f.mmHash = h) = some f ∧ f.data = none := by
  induction fs generalizing c with
  | nil => exact ⟨hc, fun h _ => by simp [updateItems], rfl, nofun, fun h _ => by simp [updateItems, missing]⟩
  | cons f fs ih =>
    have hk : f.mmHash ∈ R := hR _ mem_cons_self
    have hf : ∀ d ∈ f.data, d = content f.mmHash := hdata f mem_cons_self
    obtain ⟨hrecent', hc', hget⟩ := hrecent.getOrPut hfits hc hk hf
    obtain ⟨hc'', hpresent, hfst, hout, hmiss⟩ := ih hc' hrecent' (fun g hg => hR g (mem_cons_of_mem _ hg))
      fun g hg => hdata g (mem_cons_of_mem _ hg)
    have hself : ((c.getOrPut size capacity f.mmHash f.data).get? f.mmHash).isSome ↔
        (c.get? f.mmHash).isSome ∨ f.data.isSome := by
      have hfilter : f.data.filter (size · ≤ capacity) = f.data := by
        rcases hd : f.data with _ | d
        · rfl
        · rw [Option.filter_some, if_pos]
          rw [hf d hd]
          exact decide_eq_true (hroom _ hk)
      rw [hget _ hk, if_pos rfl, hfilter, Option.isSome_or, Bool.or_eq_true]
    rw [updateItems_cons]
    refine ⟨hc'', fun h hh => ?_, ?_, fun e he => ?_, fun h hh => ?_⟩
    · rw [hpresent h hh]
      by_cases hx : h = f.mmHash
      · subst hx
        rw [hself]
        simp only [mem_cons, exists_eq_or_imp, true_and]
        tauto
      · rw [hget h hh, if_neg hx]
        simp [Ne.symm hx]
    · rw [map_cons, map_cons, hfst]
    · rcases mem_cons.1 he with rfl | he
      · intro d hd
        rcases hp : c.get? f.mmHash with _ | d'
        · exact hf d (by simpa [hp] using hd)
        · obtain rfl : d' = d := by simpa [hp] using hd
          exact (hc _ _ hp).1
      · exact hout e he
    · have hcons : h ∈ missing ((f.mmHash, (c.get? f.mmHash).or f.data) ::
          (updateItems size capacity fs (c.getOrPut size capacity f.mmHash f.data)).1) ↔
          (h = f.mmHash ∧ ¬ (c.get? f.mmHash).isSome ∧ f.data = none) ∨
            h ∈ missing (updateItems size capacity fs (c.getOrPut size capacity f.mmHash f.data)).1 := by
        unfold missing
        rw [filter_cons]
        rcases hp : c.get? f.mmHash with _ | d <;> rcases hd : f.data with _ | d' <;> simp
      rw [hcons, hmiss h hh]
      by_cases hx : h = f.mmHash
      · subst hx
        have hfind : (∃ g, (f :: fs).find? (fun g => g.mmHash = f.mmHash) = some g ∧ g.data = none) ↔
            f.data = none := by
          simp
        rw [hfind, hself]
        constructor
        · rintro (⟨-, hp, hd⟩ | ⟨hn, -⟩)
          · exact ⟨hp, hd⟩
          · exact ⟨fun hp => hn (.inl hp), Option.not_isSome_iff_eq_none.1 fun hd => hn (.inr hd)⟩
        · rintro ⟨hp, hd⟩
          exact .inl ⟨rfl, hp, hd⟩
      · rw [find?_cons_of_neg (by simpa using Ne.symm hx), hget h hh, if_neg hx]
        simp [hx]

end Fit

/-- What P0 sends: the features in the order of the positions, those of one hash as `marked`. -/
theorem SenderCache.send_spec (hp0 : p0.Caches id capacity fun h => size (content h))
    (hfits : Dict.FitsAll size capacity content items.hashes)
      (hroom : ∀ h ∈ items.hashes, size (content h) ≤ capacity) :
    ∃ fs p0', send size capacity content p0 items = .ok (fs, p0') ∧
      (p0'.Caches id capacity fun h => size (content h)) ∧ (∀ h ∈ items.hashes, (p0'.get? h).isSome) ∧
      fs.map MmFeature.mmHash = items.byPosition.map MmItem.mmHash ∧
      ∀ h ∈ items.hashes, (fs.filter fun f => f.mmHash = h) =
        (marked content (p0.get? h).isSome (items.walk.filter fun x => x.mmHash = h)).insertionSort
          fun a b => a.offset ≤ b.offset := by
  obtain ⟨fs, p0', hmerge, hc0, hpresent, hfs, hfilter⟩ := mergeItems_spec hfits hroom
    (fun h n hn => hp0 h n ((get?_touch ..).symm.trans hn)) (recent_touch ..) (items.mem_hashes_of_isCached p0)
    (items.isSome_of_isCached p0)
  rw [items.map_fst_isCached] at hfs
  refine ⟨fs.insertionSort fun a b => a.offset ≤ b.offset, p0', ?_, hc0, fun h hh => ?_, ?_, fun h hh => ?_⟩
  · rw [send, hmerge]
    rfl
  · obtain ⟨x, hx, rfl⟩ := mem_map.1 hh
    exact (hpresent _ hh).2 (.inr ⟨_, mem_map_of_mem hx, rfl⟩)
  · have hsort := map_insertionSort (fun a b : MmFeature δ => a.offset ≤ b.offset)
      (fun a b : MmItem => a.offset ≤ b.offset) MmFeature.item fs fun _ _ _ _ => Iff.rfl
    rw [MmItems.byPosition, ← hfs, ← hsort, map_map]
    rfl
  · rw [filter_insertionSort, hfilter h hh, get?_touch, items.map_fst_isCached]

/-- One attempt, from any two caches: what it finds missing and what the caches hold afterwards. -/
theorem mm_attempt {p1 : Dict MmHash δ} (hp0 : p0.Caches id capacity fun h => size (content h))
    (hp1 : p1.Caches size capacity content) (hfits : Dict.FitsAll size capacity content items.hashes)
    (hroom : ∀ h ∈ items.hashes, size (content h) ≤ capacity) :
    ∃ fs p0' out p1', send size capacity content p0 items = .ok (fs, p0') ∧
      getAndUpdateFeatures size capacity p1 fs =
        (if missing out = [] then .ok out else .error (missing out), p1') ∧
      (p0'.Caches id capacity fun h => size (content h)) ∧ p1'.Caches size capacity content ∧
      (∀ h ∈ items.hashes, (p0'.get? h).isSome) ∧
      (∀ h ∈ items.hashes, (p1'.get? h).isSome ↔ (p1.get? h).isSome ∨ ¬ (p0.get? h).isSome) ∧
      (∀ h, h ∈ missing out ↔
        h ∈ items.hashes ∧ ¬ (p1.get? h).isSome ∧ ((p0.get? h).isSome ∨ ¬ items.FirstByPosition h)) ∧
      (missing out = [] → out = items.filled content) := by
  obtain ⟨fs, p0', hsend, hc0, hpresent0, hhashes, hone⟩ := SenderCache.send_spec hp0 hfits hroom
  have hR : ∀ h, h ∈ fs.map MmFeature.mmHash ↔ h ∈ items.hashes := by
    intro h
    rw [hhashes]
    exact ((perm_insertionSort _ items.walk).map MmItem.mmHash).mem_iff
  have hmemR : ∀ f ∈ fs, f.mmHash ∈ items.hashes := fun f hf => (hR _).1 (mem_map_of_mem hf)
  have hmarked : ∀ f, ∀ h ∈ items.hashes, f ∈ fs ∧ f.mmHash = h ↔
      f ∈ marked content (p0.get? h).isSome (items.walk.filter fun x => x.mmHash = h) := by
    intro f h hh
    have hmem : f ∈ fs ∧ f.mmHash = h ↔ f ∈ fs.filter fun f => f.mmHash = h := by
      rw [mem_filter, decide_eq_true_iff]
    rw [hmem, hone h hh, mem_insertionSort]
  have hdata : ∀ f ∈ fs, ∀ d ∈ f.data, d = content f.mmHash := fun f hf d hd =>
    (SenderCache.data_of_mem_marked ((hmarked f _ (hmemR f hf)).1 ⟨hf, rfl⟩) d hd).1
  obtain ⟨hc1, hpresent1, hfst, hout, hmiss⟩ := ReceiverCache.updateItems_spec hfits hroom
    (fun h d hd => hp1 h d ((get?_touch ..).symm.trans hd)) ((recent_touch _ p1).congr hR) hmemR hdata
  -- the items of a hash of the request
  have hitems : ∀ h ∈ items.hashes, ∃ x xs, (items.walk.filter fun x => x.mmHash = h) = x :: xs := by
    intro h hh
    obtain ⟨x, hx, rfl⟩ := mem_map.1 hh
    exact exists_cons_of_ne_nil (ne_nil_of_mem (mem_filter.2 ⟨hx, decide_eq_true rfl⟩))
  refine ⟨fs, p0', _, _, hsend, rfl, hc0, hc1, hpresent0, fun h hh => ?_, fun h => ?_, fun hnil => ?_⟩
  · obtain ⟨x, xs, hx⟩ := hitems h hh
    rw [hpresent1 h hh, get?_touch]
    refine or_congr Iff.rfl ⟨?_, fun hp => ?_⟩
    · rintro ⟨f, hf, hfh, hd⟩ hp
      obtain ⟨d, hd⟩ := Option.isSome_iff_exists.1 hd
      have hfalse := (SenderCache.data_of_mem_marked ((hmarked f h hh).1 ⟨hf, hfh⟩) d hd).2
      rw [hp] at hfalse
      cases hfalse
    · rw [Bool.not_eq_true] at hp
      have hfirst : (⟨x.mmHash, x.offset, some (content x.mmHash)⟩ : MmFeature δ) ∈
          marked content (p0.get? h).isSome (items.walk.filter fun x => x.mmHash = h) := by
        rw [hx, hp]
        exact mem_cons_self
      obtain ⟨hf, hfh⟩ := (hmarked _ h hh).2 hfirst
      exact ⟨_, hf, hfh, rfl⟩
  · by_cases hh : h ∈ items.hashes
    · obtain ⟨x, xs, hx⟩ := hitems h hh
      obtain ⟨f, hhead, hf⟩ := SenderCache.head_marked content (p0.get? h).isSome x xs
      rw [← hx, ← hone h hh, head?_filter] at hhead
      rw [hmiss h hh, get?_touch, hhead, MmItems.firstByPosition_iff hx, ← hf]
      simp [hh]
    · refine iff_of_false (fun hmem => hh ?_) fun hand => hh hand.1
      obtain ⟨e, he, rfl⟩ := mem_map.1 hmem
      rw [← hR, ← hfst]
      exact mem_map_of_mem (mem_of_mem_filter he)
  · rw [ReceiverCache.eq_of_missing_eq_nil hnil hout, hfst, hhashes, MmItems.filled, map_map]
    rfl

/-- If P1 misses items and P0 forgets what P1 reported, the same request then goes through. -/
def RetryRecovers (size : δ → Nat) (capacity : Nat) (content : MmHash → δ) (s : MmCaches δ) (items : MmItems) : Prop :=
  ∀ fs p0 hs p1, send size capacity content s.p0 items = .ok (fs, p0) →
    getAndUpdateFeatures size capacity s.p1 fs = (.error hs, p1) →
      ∃ s', MmCaches.process size capacity content ⟨p0.eraseAll hs, p1⟩ items = .ok (items.filled content, s')

theorem retry_recovers_iff {s : MmCaches δ} {items : MmItems}
    (hp0 : s.p0.Caches id capacity fun h => size (content h)) (hp1 : s.p1.Caches size capacity content)
    (hfits : (items.hashes.dedup.map fun h => size (content h)).sum ≤ capacity) :
    RetryRecovers size capacity content s items ↔
      ∀ h ∈ items.hashes, h ∈ s.p0.keys → h ∉ s.p1.keys → items.FirstByPosition h := by
  have hroom : ∀ h ∈ items.hashes, size (content h) ≤ capacity := fun h hh =>
    (single_le_sum (fun _ _ => Nat.zero_le _) _ (mem_map_of_mem (mem_dedup.2 hh))).trans hfits
  have hall : Dict.FitsAll size capacity content items.hashes :=
    ((filter_sublist.map _).sum_le_sum fun _ _ => Nat.zero_le _).trans hfits
  obtain ⟨fs1, p01, out1, p11, hsend1, hrecv1, hc01, hc11, hp01, hp11, hmiss1, -⟩ := mm_attempt hp0 hp1 hall hroom
  have herase : (p01.eraseAll (missing out1)).Caches id capacity fun h => size (content h) := by
    intro h n hn
    rw [get?_eraseAll] at hn
    split at hn
    · cases hn
    · exact hc01 h n hn
  obtain ⟨fs2, p02, out2, p12, hsend2, hrecv2, -, -, -, -, hmiss2, hfilled⟩ := mm_attempt herase hc11 hall hroom
  -- a hash is missed again iff P0 had it, P1 had not, and P1 meets it in another order
  have hagain : ∀ h, h ∈ missing out2 ↔
      h ∈ items.hashes ∧ h ∈ s.p0.keys ∧ h ∉ s.p1.keys ∧ ¬ items.FirstByPosition h := by
    intro h
    rw [hmiss2, Dict.mem_keys, Dict.mem_keys]
    refine and_congr_right fun hh => ?_
    have hkept : ((p01.eraseAll (missing out1)).get? h).isSome ↔ h ∉ missing out1 := by
      rw [get?_eraseAll]
      split
      · next hmem => simp [hmem]
      · next hmem => simp [hmem, hp01 h hh]
    rw [hkept, hmiss1, hp11 h hh]
    tauto
  have hprocess : MmCaches.process size capacity content ⟨p01.eraseAll (missing out1), p11⟩ items =
      if missing out2 = [] then .ok (out2, ⟨p02, p12⟩) else .error (.cacheMiss (missing out2)) := by
    rw [MmCaches.process, hsend2, Except.ok_bind, hrecv2]
    by_cases hnil : missing out2 = []
    · rw [if_pos hnil, if_pos hnil]
      rfl
    · rw [if_neg hnil, if_neg hnil]
  constructor
  · intro hrecovers h hh hin hout
    have hne : missing out1 ≠ [] := ne_nil_of_mem
      ((hmiss1 h).2 ⟨hh, mt Dict.mem_keys.2 hout, .inl (Dict.mem_keys.1 hin)⟩)
    rw [if_neg hne] at hrecv1
    obtain ⟨s', hs'⟩ := hrecovers _ _ _ _ hsend1 hrecv1
    rw [hprocess] at hs'
    split at hs'
    · next hnil =>
      by_contra hfirst
      have hmem := (hagain h).2 ⟨hh, hin, hout, hfirst⟩
      rw [hnil] at hmem
      cases hmem
    · cases hs'
  · intro hfirst fs p0 hs p1 hsend hrecv
    rw [hsend1] at hsend
    cases hsend
    rw [hrecv1] at hrecv
    obtain ⟨hif, rfl⟩ := Prod.mk.inj hrecv
    split at hif
    · cases hif
    cases hif
    have hnil : missing out2 = [] := eq_nil_iff_forall_not_mem.2 fun h hmem => by
      obtain ⟨hh, hin, hout, hnot⟩ := (hagain h).1 hmem
      exact hnot (hfirst h hh hin hout)
    rw [hprocess, if_pos hnil, hfilled hnil]
    exact ⟨_, rfl⟩

end

/-- P0 alone has the image; the request has it once more as a video, further on. -/
theorem retry_recovers_image_first :
    RetryRecovers (fun _ => 1) 1 id ⟨⟨[(7, 1)], by simp⟩, Dict.empty⟩ (mmRequest [⟨7, 0⟩] [⟨7, 5⟩]) := by
  refine (retry_recovers_iff ?_ nofun (by decide)).2 ?_
  · rintro h n hn
    obtain ⟨rfl, rfl⟩ := Prod.mk.inj (mem_singleton.1 (mem_entries.2 hn))
    exact ⟨rfl, le_rfl⟩
  · unfold MmItems.FirstByPosition
    decide +kernel

/-- The same with the video in front: P0 attaches the data to the image, P1 meets the video first. -/
theorem retry_misses_video_first :
    ¬ RetryRecovers (fun _ => 1) 1 id ⟨⟨[(7, 1)], by simp⟩, Dict.empty⟩ (mmRequest [⟨7, 5⟩] [⟨7, 0⟩]) := by
  intro h
  obtain ⟨s, hs⟩ := h _ _ _ _ rfl rfl
  cases hs

end Steps
end VllmCore
