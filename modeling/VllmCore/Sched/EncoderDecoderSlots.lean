import VllmCore.Core.EncoderAccounting
import VllmCore.Sched.Engine

/-! # The slots of an encoder-decoder model

`EncoderDecoderCacheManager` counts slots and remembers nothing of who holds them. Here its calls are
followed together with the items that were allocated and not released. The scheduler releases all inputs
of a request whenever a step of it is processed, so a second release is the rule. -/

namespace VllmCore
open Except List
variable {η : Type}

namespace EncoderDecoderCacheManager
open EncoderCacheManager (Item)

structure Holding where
  requestId : RequestId
  inputId : Nat
  numEmbeds : Nat
deriving DecidableEq

def holding (x : Item η) : Holding := ⟨x.request.requestId, x.inputId, x.feature.mmPosition.getNumEmbeds⟩

/-- The manager with the items that fit in the current pass and are not allocated yet, and those allocated
and not released. -/
structure Ledger (η : Type) where
  manager : EncoderDecoderCacheManager
  planned : List (Item η) := []
  held : List Holding := []

namespace Ledger
variable {cacheSize : Nat} {c c' : Ledger η}

def numEmbedsToSchedule (c : Ledger η) : Nat := (c.planned.map fun x => (holding x).numEmbeds).sum

def numEmbedsHeld (c : Ledger η) : Nat := (c.held.map (·.numEmbeds)).sum

inductive Call (η : Type) where
  | canAllocate (x : Item η) (encoderComputeBudget : Int)
  | allocate (x : Item η)
  | giveUp (planned : List (Item η))
  | freeEncoderInput (x : Item η)
  | getFreedMmHashes
  | reset

/-- The calls of a scheduler: an item is allocated if it has fitted beside the others of its pass. -/
inductive Step : Ledger η → Call η → Ledger η → Prop
  | canAllocate {c : Ledger η} {x : Item η} {budget : Int} {fits : Bool}
      (h : c.manager.canAllocate x.request x.inputId budget c.numEmbedsToSchedule = .ok fits) :
      Step c (.canAllocate x budget) { c with planned := if fits then c.planned ++ [x] else c.planned }
  | allocate {c : Ledger η} {a : List (Item η)} {x : Item η} {b : List (Item η)} {m : EncoderDecoderCacheManager}
      (hx : c.planned = a ++ x :: b) (h : c.manager.allocate x.request x.inputId = .ok m) :
      Step c (.allocate x) ⟨m, a ++ b, holding x :: c.held⟩
  | giveUp {c : Ledger η} {l : List (Item η)} (hl : l.Sublist c.planned) : Step c (.giveUp l) { c with planned := l }
  | freeEncoderInput {c : Ledger η} {x : Item η} {m : EncoderDecoderCacheManager}
      (h : c.manager.freeEncoderInput x.request x.inputId = .ok m) :
      Step c (.freeEncoderInput x) { c with manager := m, held := c.held.erase (holding x) }
  | getFreedMmHashes {c : Ledger η} : Step c .getFreedMmHashes { c with manager := c.manager.getFreedMmHashes.2 }
  | reset {c : Ledger η} :
      Step c .reset ⟨{ cacheSize := c.manager.cacheSize, numFreeSlots := c.manager.cacheSize }, [], []⟩

/-- What is released has been allocated and not released since, unless it has no embeddings. -/
def ReleasesHeld (c : Ledger η) : Call η → Prop
  | .freeEncoderInput x => holding x ∈ c.held ∨ (holding x).numEmbeds = 0
  | _ => True

/-- The free slots are those that no allocated item holds, and the planned items fit into them. -/
structure Balanced (cacheSize : Nat) (c : Ledger η) : Prop where
  size : c.manager.cacheSize = cacheSize
  slots : c.manager.numFreeSlots + c.numEmbedsHeld = cacheSize
  room : (c.numEmbedsToSchedule : Int) ≤ c.manager.numFreeSlots

theorem getNumEncoderEmbeds_holding (x : Item η) :
    x.request.getNumEncoderEmbeds x.inputId = .ok (holding x).numEmbeds := by
  unfold Request.getNumEncoderEmbeds
  simp only [x.has]
  rfl

theorem freeEncoderInput_eq (m : EncoderDecoderCacheManager) (x : Item η) : m.freeEncoderInput x.request x.inputId =
      .ok { m with numFreeSlots := m.numFreeSlots + (holding x).numEmbeds } := by
  unfold EncoderDecoderCacheManager.freeEncoderInput
  rw [getNumEncoderEmbeds_holding]
  rfl

/-- A release keeps the balance exactly if something is released. -/
theorem balanced_freeEncoderInput_iff {x : Item η} (hc : c.Balanced cacheSize)
    (hstep : Step c (.freeEncoderInput x) c') : c'.Balanced cacheSize ↔ c.ReleasesHeld (.freeEncoderInput x) := by
  cases hstep with
  | freeEncoderInput h =>
  rw [freeEncoderInput_eq] at h
  cases h
  have hslots := hc.slots
  have hroom := hc.room
  show Balanced .. ↔ holding x ∈ c.held ∨ (holding x).numEmbeds = 0
  by_cases hmem : holding x ∈ c.held
  · refine ⟨fun _ => .inl hmem, fun _ => ⟨hc.size, ?_, ?_⟩⟩
    · have hsum := ((perm_cons_erase hmem).map (·.numEmbeds)).sum_eq
      simp only [numEmbedsHeld, map_cons, sum_cons] at hslots hsum ⊢
      omega
    · simp only [numEmbedsToSchedule] at hroom ⊢
      omega
  · simp only [hmem, false_or]
    rw [erase_of_not_mem hmem]
    constructor
    · intro h
      have := h.slots
      simp only [numEmbedsHeld] at this hslots
      omega
    · intro hz
      refine ⟨hc.size, ?_, ?_⟩
      · simp only [numEmbedsHeld, hz] at hslots ⊢
        omega
      · simp only [numEmbedsToSchedule, hz] at hroom ⊢
        omega

variable {call : Call η}

theorem Step.balanced (hstep : Step c call c') (hc : c.Balanced cacheSize) (hK : c.ReleasesHeld call) :
    c'.Balanced cacheSize := by
  have hroom := hc.room
  cases hstep with
  | @canAllocate x budget fits h =>
    refine ⟨hc.size, hc.slots, ?_⟩
    unfold EncoderDecoderCacheManager.canAllocate at h
    rw [getNumEncoderEmbeds_holding, bind_eq_ok] at h
    obtain ⟨n, hn, h⟩ := h
    cases hn
    split at h
    · cases h
      exact hroom
    · rw [pure_eq_ok] at h
      cases fits with
      | false => exact hroom
      | true =>
        have hfits := of_decide_eq_true h
        simp only [numEmbedsToSchedule] at hfits ⊢
        simp only [if_true, map_append, sum_append, map_cons, map_nil, sum_cons, sum_nil]
        omega
  | @allocate a x b m hx h =>
    unfold EncoderDecoderCacheManager.allocate at h
    simp only [getNumEncoderEmbeds_holding, do_eq_ok] at h
    obtain ⟨n, hn, f, -, rfl⟩ := h
    cases hn
    have hslots := hc.slots
    have hsum : c.numEmbedsToSchedule = (holding x).numEmbeds + ((a ++ b).map fun y => (holding y).numEmbeds).sum := by
      simp only [numEmbedsToSchedule, hx, map_append, map_cons, sum_append, sum_cons]
      omega
    refine ⟨hc.size, ?_, ?_⟩
    · simp only [numEmbedsHeld, map_cons, sum_cons] at hslots ⊢
      omega
    · show (((a ++ b).map fun y => (holding y).numEmbeds).sum : Int) ≤ _
      dsimp only
      omega
  | giveUp hl =>
    refine ⟨hc.size, hc.slots, ?_⟩
    have hle := (hl.map fun x : Item η => (holding x).numEmbeds).sum_le_sum (fun _ _ => Nat.zero_le _)
    simp only [numEmbedsToSchedule] at hroom ⊢
    omega
  | freeEncoderInput h => exact (balanced_freeEncoderInput_iff hc (.freeEncoderInput h)).2 hK
  | getFreedMmHashes => exact ⟨hc.size, hc.slots, hc.room⟩
  | reset =>
    have := hc.size
    exact ⟨hc.size, by simp [numEmbedsHeld, this], by simp [numEmbedsToSchedule, this]⟩

/-- The runs of the manager in which every call satisfies `K`. -/
def Reaches (K : Ledger η → Call η → Prop) : Ledger η → Ledger η → Prop :=
  Relation.ReflTransGen fun c c' => ∃ call, Step c call c' ∧ K c call

/-! ### The calls of the scheduler -/

section
variable {request : Request η} {ids inputs : List Nat} {cache : EncoderCache}

def Plans (c : Ledger η) (request : Request η) (ids : List Nat) : Prop :=
  (∀ x ∈ c.planned, x.request = request) ∧ (c.planned.map (·.inputId)).Perm ids

/-- The scheduler's manager is where further calls may take it. -/
def Follows (c : Ledger η) (cache : EncoderCache) (request : Request η) (ids : List Nat) : Prop :=
  ∃ c', Reaches ReleasesHeld c c' ∧ cache = .encoderDecoder c'.manager ∧ c'.Plans request ids

def holdings (request : Request η) (inputs : List Nat) : List Holding :=
  inputs.filterMap fun i => request.mmFeatures[i]?.map fun f => ⟨request.requestId, i, f.mmPosition.getNumEmbeds⟩

theorem Follows.of_step (hstep : Step c call c') (hK : c.ReleasesHeld call) (h : c'.Follows cache request ids) :
    c.Follows cache request ids := by
  obtain ⟨c'', hrun, hcache, hplans⟩ := h
  exact ⟨c'', .head ⟨call, hstep, hK⟩ hrun, hcache, hplans⟩

theorem freeInputs_follows {planning : Request η} (hplans : c.Plans planning ids)
    (hheld : holdings request inputs <+~ c.held)
    (h : inputs.foldlM (fun (e : EncoderCache) i => e.freeEncoderInput request i) (.encoderDecoder c.manager) =
      .ok cache) :
    c.Follows cache planning ids := by
  induction inputs generalizing c with
  | nil => cases h; exact ⟨c, .refl, rfl, hplans⟩
  | cons i inputs ih =>
    simp only [foldlM_cons, EncoderCache.freeEncoderInput, do_eq_ok] at h
    obtain ⟨_, ⟨m, hm, rfl⟩, h⟩ := h
    cases hf : request.mmFeatures[i]? with
    | none => simp [EncoderDecoderCacheManager.freeEncoderInput, Request.getNumEncoderEmbeds, hf] at hm
    | some f =>
      have hcons : holdings request (i :: inputs) = holding ⟨request, i, f, hf⟩ :: holdings request inputs :=
        filterMap_cons_some (by rw [hf]; rfl)
      rw [hcons] at hheld
      have hrest := hheld.erase (holding ⟨request, i, f, hf⟩)
      rw [erase_cons_head] at hrest
      refine .of_step (.freeEncoderInput (x := ⟨request, i, f, hf⟩) hm) (.inl (hheld.subset (mem_cons_self ..))) ?_
      exact ih (c := { c with manager := m, held := _ }) hplans hrest h

theorem allocateInputs_follows (hplans : c.Plans request (inputs ++ ids))
    (h : inputs.foldlM (fun (e : EncoderCache) i => e.allocate request i) (.encoderDecoder c.manager) = .ok cache) :
    c.Follows cache request ids := by
  induction inputs generalizing c with
  | nil => cases h; exact ⟨c, .refl, rfl, hplans⟩
  | cons i inputs ih =>
    simp only [foldlM_cons, EncoderCache.allocate, do_eq_ok] at h
    obtain ⟨_, ⟨m, hm, rfl⟩, h⟩ := h
    obtain ⟨hreq, hids⟩ := hplans
    obtain ⟨x, hx, hxi⟩ := mem_map.1 (hids.mem_iff.2 (mem_cons_self ..))
    obtain ⟨a, b, hsplit⟩ := append_of_mem hx
    have hxr := hreq x hx
    subst hxi hxr
    refine .of_step (.allocate hsplit hm) trivial (ih (c := ⟨m, a ++ b, _⟩) ⟨fun y hy => hreq y ?_, ?_⟩ h)
    · rw [hsplit]
      rcases mem_append.1 hy with hy | hy
      · exact mem_append_left _ hy
      · exact mem_append_right _ (mem_cons_of_mem _ hy)
    · rw [hsplit, map_append, map_cons] at hids
      rw [map_append]
      exact ((perm_middle.symm.trans hids).cons_inv)

/-- The scan of a request's inputs and the plan it makes. -/
structure Scans (w : Scheduler.EncoderWindow η) (st : Scheduler.EncoderScan) (c : Ledger η) : Prop where
  cache : st.cache = .encoderDecoder c.manager
  embeds : st.numEmbedsToSchedule = c.numEmbedsToSchedule
  plans : c.Plans w.request (st.encoderInputsToSchedule ++ st.externalLoadEncoderInput)

variable {w : Scheduler.EncoderWindow η} {st st' : Scheduler.EncoderScan} {i : Nat} {f : MultiModalFeatureSpec}

theorem takeItem_scans (hf : w.request.mmFeatures[i]? = some f) (h : Scans w st c) (hok : w.takeItem i f st = .ok st') :
    ∃ l, l.Sublist (c.planned ++ [⟨w.request, i, f, hf⟩]) ∧ Scans w st' { c with planned := l } := by
  simp only [Scheduler.EncoderWindow.takeItem, bind_eq_ok] at hok
  obtain ⟨⟨a, b⟩, -, hok⟩ := hok
  have hreq : ∀ y ∈ c.planned ++ [⟨w.request, i, f, hf⟩], y.request = w.request := by
    intro y hy
    rcases mem_append.1 hy with hy | hy
    · exact h.plans.1 y hy
    · rw [mem_singleton.1 hy]
  have hembeds : st.numEmbedsToSchedule + f.mmPosition.getNumEmbeds =
      ((c.planned ++ [(⟨w.request, i, f, hf⟩ : Item η)]).map fun x => (holding x).numEmbeds).sum := by
    have := h.embeds
    simp only [numEmbedsToSchedule, holding] at this
    simp only [map_append, map_cons, map_nil, sum_append, sum_cons, sum_nil, holding]
    omega
  have hids := h.plans.2
  dsimp only at hok
  split at hok
  · cases hok
    exact ⟨c.planned, sublist_append_left .., h⟩
  split at hok
  · cases hok
    refine ⟨_, .refl _, h.cache, hembeds, hreq, ?_⟩
    · rw [map_append, ← append_assoc]
      exact hids.append_right _
  · cases hok
    refine ⟨_, .refl _, h.cache, hembeds, hreq, ?_⟩
    · rw [map_append, append_assoc]
      exact (hids.append_right _).trans (by
        rw [append_assoc]
        exact Perm.append_left _ perm_append_comm)

theorem scanItem_scans {stop : Bool} (hed : w.config.isEncoderDecoder = true) (h : Scans w st c)
    (hok : w.scanItem i st = .ok (stop, st')) : ∃ c', Reaches ReleasesHeld c c' ∧ Scans w st' c' := by
  simp only [Scheduler.EncoderWindow.scanItem, bind_eq_ok] at hok
  obtain ⟨f, hf, hok⟩ := hok
  have hf : w.request.mmFeatures[i]? = some f := by
    unfold Request.mmFeature at hf
    split at hf
    · next hf' => cases hf; exact hf'
    · cases hf
  split at hok
  · simp only [do_eq_ok] at hok
    obtain ⟨-, -, he⟩ := hok
    cases he
    exact ⟨c, .refl, h⟩
  have hthere : w.alreadyThere i f st = .ok (false, st) := by
    unfold Scheduler.EncoderWindow.alreadyThere
    rw [if_pos hed]
  simp only [bind_eq_ok] at hok
  obtain ⟨_, h1, hok⟩ := hok
  cases hthere.symm.trans h1
  rw [if_neg Bool.false_ne_true] at hok
  unfold Scheduler.EncoderWindow.admitItem at hok
  dsimp only at hok
  split at hok
  · cases hok
    exact ⟨c, .refl, h.cache, h.embeds, h.plans⟩
  simp only [h.cache, EncoderCache.canAllocate, do_eq_ok, Prod.mk.injEq, Prod.exists] at hok
  obtain ⟨fits, cache, ⟨fits', hfits, rfl, rfl⟩, hok⟩ := hok
  rw [h.embeds] at hfits
  have hstep := Step.canAllocate (x := ⟨w.request, i, f, hf⟩) hfits
  split at hok
  · next hyes =>
    subst hyes
    simp only [do_eq_ok, Prod.mk.injEq] at hok
    obtain ⟨st2, h2, -, rfl⟩ := hok
    have hscans : Scans w { st with cache := .encoderDecoder c.manager } c := ⟨rfl, h.embeds, h.plans⟩
    obtain ⟨l, hl, hscan⟩ := takeItem_scans hf hscans h2
    rw [if_pos rfl] at hstep
    have hgive : Step ⟨c.manager, c.planned ++ [⟨w.request, i, f, hf⟩], c.held⟩ (.giveUp l) { c with planned := l } :=
      .giveUp hl
    exact ⟨_, .head ⟨_, hstep, trivial⟩ (.single ⟨_, hgive, trivial⟩), hscan⟩
  · next hno =>
    cases hok
    rw [if_neg hno] at hstep
    exact ⟨_, .single ⟨_, hstep, trivial⟩, rfl, h.embeds, h.plans⟩

theorem scanItems_scans {is : List Nat} (hed : w.config.isEncoderDecoder = true) (h : Scans w st c)
    (hok : w.scanItems is st = .ok st') : ∃ c', Reaches ReleasesHeld c c' ∧ Scans w st' c' := by
  induction is generalizing st c with
  | nil => cases hok; exact ⟨c, .refl, h⟩
  | cons i is ih =>
    simp only [Scheduler.EncoderWindow.scanItems, bind_eq_ok] at hok
    obtain ⟨⟨stop, st1⟩, h1, hok⟩ := hok
    obtain ⟨c1, hrun, hscan⟩ := scanItem_scans hed h h1
    dsimp only at hok
    split at hok
    · cases hok
      exact ⟨c1, hrun, hscan⟩
    · obtain ⟨c2, hrun2, hscan2⟩ := ih hscan hok
      exact ⟨c2, hrun.trans hrun2, hscan2⟩

theorem tryScheduleEncoderInputs_follows {s s' : Scheduler η} {hasCacheItem : RequestId → Nat → Bool}
    {numComputedTokens numNewTokens budget : Int} {plan : Scheduler.EncoderPlan}
    (hed : s.config.isEncoderDecoder = true) (hcache : s.encoderCacheManager = .encoderDecoder c.manager)
    (hnone : c.planned = [])
    (h : s.tryScheduleEncoderInputs hasCacheItem request numComputedTokens numNewTokens budget = .ok (plan, s')) :
    c.Follows s'.encoderCacheManager request (plan.encoderInputsToSchedule ++ plan.externalLoadEncoderInput) := by
  have hplans : c.Plans request [] := by
    unfold Plans
    rw [hnone]
    exact ⟨by simp, .refl _⟩
  unfold Scheduler.tryScheduleEncoderInputs at h
  split at h
  · cases h
    exact ⟨c, .refl, hcache, hplans⟩
  · simp only [do_eq_ok, Prod.mk.injEq] at h
    obtain ⟨st, hst, rfl, rfl⟩ := h
    obtain ⟨c', hrun, hscan⟩ := scanItems_scans (c := c) hed ⟨hcache, by simp [numEmbedsToSchedule, hnone], hplans⟩ hst
    exact ⟨c', hrun, hscan.cache, hscan.plans⟩

theorem Follows.trans {cache' : EncoderCache} {ids' : List Nat} (h : c.Follows cache request ids)
    (h' : ∀ {c' : Ledger η}, cache = .encoderDecoder c'.manager → c'.Plans request ids →
      c'.Follows cache' request ids') :
    c.Follows cache' request ids' := by
  obtain ⟨c₁, hrun, hcache, hplans⟩ := h
  obtain ⟨c₂, hrun', hrest⟩ := h' hcache hplans
  exact ⟨c₂, hrun.trans hrun', hrest⟩

theorem allocateEncoder_follows {p p' : Pass η} (hcache : p.scheduler.encoderCacheManager = .encoderDecoder c.manager)
    (hplans : c.Plans request (inputs ++ ids)) (h : p.allocateEncoder request inputs = .ok p') :
    c.Follows p'.scheduler.encoderCacheManager request ids := by
  simp only [Pass.allocateEncoder, do_eq_ok] at h
  obtain ⟨cache, h, rfl⟩ := h
  rw [hcache] at h
  exact allocateInputs_follows hplans h

theorem recordEncoder_follows {p p' : Pass η} {r : RequestId} {plan : Scheduler.EncoderPlan}
    (hcache : p.scheduler.encoderCacheManager = .encoderDecoder c.manager)
    (hplans : c.Plans request (plan.encoderInputsToSchedule ++ plan.externalLoadEncoderInput))
    (h : p.recordEncoder r request plan = .ok p') : c.Follows p'.scheduler.encoderCacheManager request [] := by
  simp only [Pass.recordEncoder, do_eq_ok] at h
  obtain ⟨p₁, h₁, p₂, h₂, rfl⟩ := h
  refine (allocateEncoder_follows hcache hplans h₁).trans fun {c₁} hcache₁ hplans₁ => ?_
  rw [← append_nil plan.externalLoadEncoderInput] at hplans₁
  show c₁.Follows p₂.scheduler.encoderCacheManager request []
  split at h₂
  · exact allocateEncoder_follows hcache₁ hplans₁ h₂
  · exact allocateEncoder_follows (by exact hcache₁) hplans₁ h₂

/-- From here the scheduler's own functions make such calls: it plans the inputs of a request, allocates what it has
planned, and releases the inputs that are passed after a processed step, or all of them. -/
structure Driven (c : Ledger η) : Prop where
  plan : ∀ {s s' : Scheduler η} {hasCacheItem : RequestId → Nat → Bool} {request : Request η}
    {numComputedTokens numNewTokens budget : Int} {plan : Scheduler.EncoderPlan}, s.config.isEncoderDecoder = true →
    s.encoderCacheManager = .encoderDecoder c.manager → c.planned = [] →
    s.tryScheduleEncoderInputs hasCacheItem request numComputedTokens numNewTokens budget = .ok (plan, s') →
    c.Follows s'.encoderCacheManager request (plan.encoderInputsToSchedule ++ plan.externalLoadEncoderInput)
  record : ∀ {p p' : Pass η} {r : RequestId} {request : Request η} {plan : Scheduler.EncoderPlan},
    p.scheduler.encoderCacheManager = .encoderDecoder c.manager →
    c.Plans request (plan.encoderInputsToSchedule ++ plan.externalLoadEncoderInput) →
    p.recordEncoder r request plan = .ok p' → c.Follows p'.scheduler.encoderCacheManager request []
  release : ∀ {s s' : Scheduler η} {request planning : Request η} {ids : List Nat},
    s.encoderCacheManager = .encoderDecoder c.manager → c.Plans planning ids →
    holdings request (s.passedInputs request) <+~ c.held → s.freeEncoderInputs request = .ok s' →
    c.Follows s'.encoderCacheManager planning ids
  free : ∀ {cache : EncoderCache} {request planning : Request η} {ids : List Nat}, c.Plans planning ids →
    holdings request (range request.mmFeatures.length) <+~ c.held →
    (EncoderCache.encoderDecoder c.manager).free request = .ok cache → c.Follows cache planning ids

end

/-- As long as only allocated items are released, the free slots are those that no allocated item holds. -/
theorem encoderDecoder_balanced
    (hrun : Reaches ReleasesHeld ⟨{ cacheSize := cacheSize, numFreeSlots := cacheSize }, [], []⟩ c) :
    0 ≤ c.manager.numFreeSlots ∧ c.manager.numFreeSlots ≤ cacheSize ∧
      c.manager.numFreeSlots = cacheSize - c.numEmbedsHeld ∧ c.Driven := by
  have hc : c.Balanced cacheSize := by
    induction hrun with
    | refl => exact ⟨rfl, by simp [numEmbedsHeld], by simp [numEmbedsToSchedule]⟩
    | tail _ hstep ih =>
      obtain ⟨call, hstep, hK⟩ := hstep
      exact hstep.balanced ih hK
  have hslots := hc.slots
  have hroom := hc.room
  refine ⟨by omega, by omega, by omega, tryScheduleEncoderInputs_follows, recordEncoder_follows, ?_, freeInputs_follows⟩
  intro s s' request planning ids hcache hplans hheld h
  simp only [Scheduler.freeEncoderInputs, do_eq_ok] at h
  obtain ⟨cache, h, rfl⟩ := h
  rw [hcache] at h
  exact freeInputs_follows hplans hheld h

def oneAudio : Item Nat :=
  ⟨{ requestId := 1, mmFeatures := [⟨7, ⟨0, 3, none⟩⟩] }, 0, ⟨7, ⟨0, 3, none⟩⟩, rfl⟩

/-- One item of three embeddings, allocated and released once. -/
theorem encoderDecoder_balanced_once : ∃ c : Ledger Nat, c.held = [] ∧ c.manager.numFreeSlots = 4 ∧
    c.manager.numFreeSlots = (4 : Nat) - c.numEmbedsHeld := by
  have h1 : Step ⟨{ cacheSize := 4, numFreeSlots := 4 }, [], []⟩ (.canAllocate oneAudio 4)
      ⟨_, [oneAudio], []⟩ :=
    @Step.canAllocate Nat _ _ _ true rfl
  have h2 : Step ⟨{ cacheSize := 4, numFreeSlots := 4 }, [oneAudio], []⟩ (.allocate oneAudio) ⟨_, [], [⟨1, 0, 3⟩]⟩ :=
    .allocate (a := []) (b := []) rfl rfl
  have h3 : Step ⟨{ cacheSize := 4, numFreeSlots := 1, allocated := [7] }, [], [⟨1, 0, 3⟩]⟩ (.freeEncoderInput oneAudio)
      ⟨{ cacheSize := 4, numFreeSlots := 4, allocated := [7] }, [], []⟩ := .freeEncoderInput rfl
  have hrun : Reaches ReleasesHeld _ _ := ((Relation.ReflTransGen.refl.tail ⟨_, h1, trivial⟩).tail ⟨_,
      h2, trivial⟩).tail
    ⟨_, h3, .inl (mem_singleton.2 rfl)⟩
  exact ⟨_, rfl, rfl, (encoderDecoder_balanced hrun).2.2.1⟩

end Ledger

end EncoderDecoderCacheManager

/-! ### Two decode steps -/

namespace Engine

def whisperConfig : SchedulerConfig where
  maxNumRunningReqs := 4
  maxNumScheduledTokens := 16
  maxNumBatchedTokens := 16
  maxModelLen := 16
  maxInFlightTokens := 16
  blockSize := 2
  cacheBlockSize := 2
  hashBlockSize := 2
  enablePrefixCaching := false
  isEncoderDecoder := true
  maxNumEncoderInputTokens := 4
  encoderCacheSize := 4

def decoderCache : Coordinator.KVCacheConfig where
  numBlocks := 8
  groups := [⟨⟨2, .fullAttention, Nat.two_pos, 0⟩, false⟩]

def audio : Request.Args Nat where
  requestId := 1
  promptTokenIds := some [1, 2]
  samplingParams := some { maxTokens := 8, eosTokenId := some 9 }
  mmFeatures := [⟨7, ⟨0, 3, none⟩⟩]

/-- Of four slots, one is free while the audio is encoded, and seven are after the second token. -/
theorem more_slots_than_cache : ∃ e₀ e₁ e₂ m₁ m₂, Engine.init whisperConfig decoderCache = .ok e₀ ∧
    e₀.run [.addRequest {} audio, .schedule {}] = .ok e₁ ∧
    e₁.scheduler.encoderCacheManager = .encoderDecoder m₁ ∧ m₁.numFreeSlots = 1 ∧
    e₁.run [.updateFromOutput { sampledTokenIds := fun _ => [5] }, .schedule {},
      .updateFromOutput { sampledTokenIds := fun _ => [5] }] = .ok e₂ ∧
    e₂.scheduler.encoderCacheManager = .encoderDecoder m₂ ∧ m₂.cacheSize = 4 ∧ m₂.numFreeSlots = 7 :=
  ⟨_, _, _, _, _, rfl, rfl, rfl, rfl, rfl, rfl, rfl, rfl⟩

end Engine

end VllmCore
