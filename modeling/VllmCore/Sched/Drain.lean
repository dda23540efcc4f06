import VllmCore.Sched.Partition

/-! # The draining pause

`pause_scheduler(mode="wait")` sets `PAUSED_NEW` and resolves its future when the busy loop finds no work.
Under `PAUSED_NEW` only the requests in `running` count as work, and a preemption takes a request out of
`running`. As long as every running request finds the blocks it asks for, nothing moves back into the waiting
queues and the drain is complete. -/

namespace VllmCore
open Except List
variable {η : Type} {X : List RequestId} {k : Nat}

namespace Scheduler

def getNumUnfinishedRequests (s : Scheduler η) : Int :=
  match s.pauseState with
  | .pausedAll => 0
  | .pausedNew => s.running.length
  | .unpaused =>
    s.waiting.items.length + s.skippedWaiting.items.length - s.numWaitingForStreamingInput + s.running.length

def hasUnfinishedRequests (s : Scheduler η) : Bool := decide (0 < s.getNumUnfinishedRequests)

/-- With a connector, finished requests stay in `requests` while their blocks are being sent. -/
def hasFinishedRequests (s : Scheduler η) : Bool :=
  decide (s.finishedReqIds ≠ []) || s.config.connector.isSome &&
    decide (s.waiting.items.length + s.skippedWaiting.items.length + s.running.length < s.requests.entries.length)

/-- `pushWork`: a connector still has pushes to do. -/
def hasRequests (s : Scheduler η) (pushWork : Bool) : Bool :=
  s.hasUnfinishedRequests || s.hasFinishedRequests || pushWork

end Scheduler

/-! ### Enough blocks -/

section Room
variable [DecidableEq η]

/-- The check of `allocate_slots` before it allocates: the blocks it would need are free once the skipped ones
have been given back. -/
def KVCacheManager.HasRoom (k : KVCacheManager η) (request : Request η) (a : AllocArgs) : Prop :=
  ∀ c c' required, k.coordinator.removeSkippedBlocks request.requestId
      ((k.totalComputedTokens request a : Int) - request.numInFlightTokens).toNat (some request.numPromptTokens) =
      .ok c →
    c.getNumBlocksToAllocate request.requestId (k.numTokensNeedSlot request a)
      (a.newComputedBlocks.getD k.emptyKvCacheBlocks) a.numEncoderTokens
      (numLocalComputedTokens request a + a.numExternalComputedTokens) (numLocalComputedTokens request a)
      (k.numTokensMainModel request a) false = .ok (required, c') →
    required + k.watermarkFor request a ≤ (c'.pool.getNumFreeBlocks : Int) - a.reservedBlocks

theorem KVCacheManager.HasRoom.allocates {k k' : KVCacheManager η} {request : Request η} {a : AllocArgs}
    {res : Option (List (List BlockId))} (hroom : k.HasRoom request a) (hfull : a.fullSequenceMustFit = false)
    (h : k.allocateSlots request a = .ok (res, k')) : ∃ blocks, res = some blocks := by
  simp only [allocateSlots, fullSequenceFits, hfull, bind_eq_ok] at h
  obtain ⟨-, -, ⟨fits, c⟩, hfits, h⟩ := h
  cases hfits
  simp only [Bool.not_true, Bool.false_eq_true, if_false, bind_eq_ok] at h
  obtain ⟨c1, h1, ⟨required, c2⟩, h2, h⟩ := h
  have hle := hroom c1 c2 required h1 h2
  dsimp only at h
  rw [if_neg (by omega)] at h
  simp only [do_eq_ok] at h
  obtain ⟨c3, -, ⟨blocks, c4⟩, -, c5, -, he⟩ := h
  cases he
  exact ⟨blocks, rfl⟩

namespace Pass
open Scheduler

/-- Every `allocate_slots` of the running loop finds room. -/
def RoomAlong (env : ScheduleEnv) : Nat → Pass η → Nat → Prop
  | 0, _, _ => True
  | fuel + 1, p, i =>
    ∀ r request, p.scheduler.running[i]? = some r → ¬ (p.tokenBudget ≤ 0 ∨ p.inputBudget ≤ p.draftSlots) →
      p.scheduler.getRequest r = .ok request →
      if p.skipsRunning env request then RoomAlong env fuel p (i + 1)
      else ∀ plan p1, (p.runningNumNewTokens request).2.planEncoder env request request.numComputedTokens
          (p.runningNumNewTokens request).1 = .ok (plan, p1) →
        let n := p1.scheduler.reservePrefillLookahead request request.numComputedTokens plan.numNewTokens
        if n = 0 then RoomAlong env fuel p1 (i + 1)
        else
          let a : AllocArgs := { numNewTokens := n, numLookaheadTokens := p1.scheduler.config.numLookaheadTokens }
          (∀ q, p1.scheduler.getRequest r = .ok q → p1.scheduler.kvCacheManager.HasRoom q a) ∧
          ∀ q blocks kv p2, p1.scheduler.getRequest r = .ok q →
            p1.scheduler.kvCacheManager.allocateSlots q a = .ok (some blocks, kv) →
            recordRunning { p1 with scheduler := { p1.scheduler with kvCacheManager := kv } } r blocks n plan = .ok p2 →
            RoomAlong env fuel p2 (i + 1)

variable {p p' p'' : Pass η} {r : RequestId} {q : Request η} {env : ScheduleEnv}

theorem runningLoop_same {fuel i : Nat} (hroom : RoomAlong env fuel p i) (h : runningLoop env fuel p i = .ok p') :
    Same p p' := by
  induction fuel generalizing p i with
  | zero => cases h; exact .refl _
  | succ fuel ih =>
    unfold runningLoop at h
    split at h
    · cases h; exact .refl _
    next r hr =>
    split at h
    · cases h; exact .refl _
    next hbudget =>
    simp only [bind_eq_ok] at h
    obtain ⟨q, hq, h⟩ := h
    have hroom := hroom r q hr hbudget hq
    split at h
    · next hskip =>
      rw [if_pos hskip] at hroom
      exact ih hroom h
    next hskip =>
    rw [if_neg hskip] at hroom
    simp only [bind_eq_ok] at h
    obtain ⟨⟨plan, p1⟩, h1, h⟩ := h
    have hroom := hroom plan p1 h1
    have hplan := ((runningNumNewTokens_idle p q).trans (planEncoder_idle h1)).same
    dsimp only at h hroom
    split at h
    · next hn =>
      rw [if_pos hn] at hroom
      exact hplan.trans (ih hroom h)
    next hn =>
    rw [if_neg hn] at hroom
    simp only [bind_eq_ok] at h
    obtain ⟨⟨blocks, p2, i2⟩, h2, h⟩ := h
    -- the first round of the allocation succeeds
    generalize p1.scheduler.running.length = tries at h2
    cases tries with
    | zero => cases h2
    | succ tries =>
      simp only [allocateLoop, bind_eq_ok] at h2
      obtain ⟨q1, hq1, ⟨res, kv⟩, halloc, h2⟩ := h2
      obtain ⟨b, rfl⟩ := (hroom.1 q1 hq1).allocates rfl halloc
      cases h2
      simp only [bind_eq_ok] at h
      obtain ⟨p3, h3, h⟩ := h
      have hkv : Same p1 { p1 with scheduler := { p1.scheduler with kvCacheManager := kv } } :=
        ⟨⟨rfl, rfl, rfl, rfl, rfl, rfl, fun _ => rfl⟩, rfl⟩
      exact hplan.trans (hkv.trans ((recordRunning_same h3).trans (ih (hroom.2 q1 b kv p3 hq1 halloc h3) h)))

end Pass

def Scheduler.Roomy (s : Scheduler η) (env : ScheduleEnv) : Prop :=
  ∀ s1, s.alignDecodes.recycleWindows = .ok s1 → Pass.RoomAlong env s1.running.length (s1.startPass env) 0

namespace Scheduler
variable {s s' : Scheduler η} {r : RequestId} {q : Request η} {env : ScheduleEnv}

theorem schedule_same_of_roomy {out : SchedulerOutput} (hpause : s.pauseState ≠ .unpaused) (hroom : s.Roomy env)
    (h : s.schedule env = .ok (out, s')) : SameQueues s s' := by
  simp only [schedule, bind_eq_ok] at h
  obtain ⟨s1, h1, p1, h2, p2, h3, p3, h4, h5⟩ := h
  have hstart := s.alignDecodes_same.trans (recycleWindows_same h1).same
  have hloop := Pass.runningLoop_same (hroom s1 h1) h2
  have hloras := (Pass.recordLoras_idle h3).same
  -- no request is admitted while the pause lasts
  have hwaiting : p3 = p2 := by
    unfold Pass.scheduleWaiting at h4
    rw [if_neg] at h4
    · cases h4; rfl
    · rintro ⟨-, hun⟩
      rw [hloras.queues.pause, hloop.queues.pause] at hun
      exact hpause (hstart.pause.symm.trans hun)
  subst hwaiting
  have hfresh : SameQueues s1 (s1.startPass env).scheduler := ⟨rfl, rfl, rfl, rfl, rfl, rfl, fun _ => rfl⟩
  exact hstart.trans (hfresh.trans ((hloop.trans hloras).queues.trans (emit_same h5)))

end Scheduler

end Room

namespace Engine
variable [DecidableEq η] {e e' : Engine η} {op : EngineOp η} {T : List RequestId}

/-- `engines_running` is set for data-parallel ranks only. -/
def hasWork (e : Engine η) (enginesRunning pushWork : Bool) : Bool :=
  enginesRunning || e.scheduler.hasRequests pushWork || decide (e.inFlight ≠ [])

/-- The requests that the steps of a run schedule tokens for. -/
def scheduledIn : List (EngineOp η) → Engine η → List RequestId
  | [], _ => []
  | op :: ops, e =>
    let here := match op with
      | .schedule env => match e.scheduler.schedule env with
        | .ok (out, _) => out.numScheduledTokens.keys
        | .error _ => []
      | _ => []
    match e.apply op with
    | .ok e' => here ++ scheduledIn ops e'
    | .error _ => here

/-- The condition on a call made while the requests `T` drain: it brings none of their ids again, it schedules
under the pause and finds room for what it schedules, its outputs are no sessions', and it does not preempt
everything to reset the cache. -/
def Drains (T : List RequestId) (e : Engine η) : EngineOp η → Prop
  | .addRequest _ args => args.requestId ∉ T
  | .schedule env => e.scheduler.pauseState = .pausedNew ∧ e.scheduler.Roomy env
  | .updateFromOutput _ => ∀ out ∈ e.inFlight.head?, e.scheduler.SessionFree out
  | .resetPrefixCache resetRunningRequests _ _ => resetRunningRequests = false
  | _ => True

def Clear (T : List RequestId) (e : Engine η) : Prop :=
  ∃ X k, e.scheduler.Adrift X k ∧ ∀ r ∈ T, r ∉ e.scheduler.allWaiting ∧ r ∉ X

theorem Drains.spares (h : Drains T e op) : SparesSessions e op := by
  rintro mro out rest rfl hin r hr q hq - - - hopen -
  have hfree := h out (by rw [hin]; rfl) r hr q hq
  rw [hopen.1] at hfree
  cases hfree

theorem apply_allWaiting (ha : e.scheduler.Adrift X k) (hd : Drains T e op) (h : e.apply op = .ok e') :
    ∀ r ∈ T, r ∈ e'.scheduler.allWaiting → r ∈ e.scheduler.allWaiting := by
  intro r hr hmem
  cases op with
  | addRequest env args =>
    simp only [apply, do_eq_ok] at h
    obtain ⟨q, hq, s, h1, rfl⟩ := h
    obtain ⟨-, -, -, hwait⟩ := Scheduler.addRequest_adrift ha hq h1
    rcases mem_cons.1 (hwait hmem) with rfl | hmem
    · exact absurd ((Request.init_eq hq).2.2 ▸ hr) hd
    · exact hmem
  | schedule env =>
    simp only [apply, do_eq_ok] at h
    obtain ⟨⟨out, s⟩, h1, rfl⟩ := h
    rwa [← (Scheduler.schedule_same_of_roomy (by rw [hd.1]; decide) hd.2 h1).allWaiting]
  | updateFromOutput mro =>
    simp only [apply] at h
    split at h
    · cases h
    · next out rest hin =>
      simp only [do_eq_ok] at h
      obtain ⟨⟨outputs, s⟩, h1, rfl⟩ := h
      obtain ⟨-, -, -, -, hwait⟩ := Scheduler.updateFromOutput_adrift ha h1
      exact hwait (hd out (by rw [hin]; rfl)) hmem
  | updateDraftTokenIds step x validated =>
    cases h
    rwa [← (Scheduler.updateDraftTokenIds_same e.scheduler step x validated).allWaiting]
  | finishRequests env ids status =>
    simp only [apply, do_eq_ok] at h
    obtain ⟨s, h1, rfl⟩ := h
    obtain ⟨-, -, -, hwait⟩ := Scheduler.finishRequests_adrift ha h1
    exact hwait hmem
  | resetPrefixCache a b c =>
    cases (hd : a = false)
    simp only [apply, do_eq_ok] at h
    obtain ⟨⟨res, s⟩, h1, rfl⟩ := h
    simp only [Scheduler.resetPrefixCache, Scheduler.preemptForReset, Bool.false_eq_true, if_false, ok_bind,
      Bool.false_and] at h1
    split at h1
    · cases h1; exact hmem
    · cases h1; exact hmem
  | resetEncoderCache => cases h; exact hmem
  | setPauseState state => cases h; exact hmem

theorem Clear.apply (hc : Clear T e) (hd : Drains T e op) (h : e.apply op = .ok e') : Clear T e' := by
  obtain ⟨X, k, ha, hT⟩ := hc
  obtain ⟨X', k', ha', hkeep⟩ := apply_adrift ha h
  refine ⟨X', k', ha', fun r hr => ⟨fun hmem => ?_, fun hmem => ?_⟩⟩
  · exact (hT r hr).1 (apply_allWaiting ha hd h r hr hmem)
  · exact (hT r hr).2 ((hkeep hd.spares).1.subset hmem)

theorem run_adrift {config : SchedulerConfig} {kvConfig : Coordinator.KVCacheConfig} {e₀ : Engine η}
    {ops : List (EngineOp η)} (hinit : Engine.init config kvConfig = .ok e₀) (hrun : e₀.run ops = .ok e) :
    ∃ X k, e.scheduler.Adrift X k := by
  simp only [init, do_eq_ok] at hinit
  obtain ⟨s, hs, rfl⟩ := hinit
  refine foldlM_inv (P := fun e : Engine η => ∃ X k, e.scheduler.Adrift X k) (fun op _ x y hx hxy => ?_) hrun
    ⟨[], 0, Scheduler.adrift_zero.2 (Scheduler.init_consistent hs)⟩
  obtain ⟨X, k, ha⟩ := hx
  obtain ⟨X', k', ha', -⟩ := apply_adrift ha hxy
  exact ⟨X', k', ha'⟩

omit [DecidableEq η] in
theorem running_eq_nil_of_idle {er push : Bool} (hpaused : e.scheduler.pauseState = .pausedNew)
    (hidle : e.hasWork er push = false) : e.scheduler.running = [] := by
  simp only [hasWork, Scheduler.hasRequests, Scheduler.hasUnfinishedRequests, Scheduler.getNumUnfinishedRequests,
    hpaused, Bool.or_eq_false_iff, decide_eq_false_iff_not] at hidle
  obtain ⟨⟨-, ⟨hlen, -⟩, -⟩, -⟩ := hidle
  exact length_eq_zero_iff.1 (by omega)

/-- The future of a draining pause resolves where the engine has no work. If the unfinished requests scheduled
before the pause were running then, and every call since has met the condition, all of them have finished. -/
theorem drained {config : SchedulerConfig} {kvConfig : Coordinator.KVCacheConfig} {e₀ e₁ e : Engine η}
    (ops₁ ops₂ : List (EngineOp η)) (er push : Bool) (hinit : Engine.init config kvConfig = .ok e₀)
    (hrun₁ : e₀.run ops₁ = .ok e₁)
    (hruns : ∀ r ∈ scheduledIn ops₁ e₀, ∀ q, e₁.scheduler.requests.get? r = some q → q.isFinished = false →
      r ∈ e₁.scheduler.running) (hdrains : Along (Drains (scheduledIn ops₁ e₀)) (.setPauseState .pausedNew :: ops₂) e₁)
    (hrun₂ : e₁.run (.setPauseState .pausedNew :: ops₂) = .ok e)
    (hpaused : e.scheduler.pauseState = .pausedNew) (hidle : e.hasWork er push = false) :
    ∀ r ∈ scheduledIn ops₁ e₀, ∀ q, e.scheduler.requests.get? r = some q → q.isFinished = true := by
  obtain ⟨X, k, ha⟩ := run_adrift hinit hrun₁
  have hstart : Clear (scheduledIn ops₁ e₀) e₁ := by
    refine ⟨X, k, ha, fun r hr => not_or.1 fun hmem => ?_⟩
    have hW : r ∈ e₁.scheduler.allWaiting ++ X := mem_append.2 hmem
    obtain ⟨q, hq, hlive⟩ := (ha.live r).1 (mem_append_right _ hW)
    exact (nodup_append.1 ha.nodup).2.2 r (hruns r hr q hq hlive) r hW rfl
  obtain ⟨X', k', ha', hT⟩ := run_inv (fun _ _ _ hc hd hstep => hc.apply hd hstep) hstart hdrains hrun₂
  intro r hr q hq
  by_contra hfin
  have hmem := (ha'.live r).2 ⟨q, hq, Bool.eq_false_iff.2 hfin⟩
  rw [running_eq_nil_of_idle hpaused hidle, nil_append, mem_append] at hmem
  exact hmem.elim (hT r hr).1 (hT r hr).2

def sampleAll (token : TokenId) : EngineOp Nat := .updateFromOutput { sampledTokenIds := fun _ => [token] }

def twoChats : List (EngineOp Nat) := [.addRequest {} (chat 1 false), .addRequest {} (chat 2 false), .schedule {}]

/-- With room for both, two requests that run when the pause comes are finished when the engine is idle. -/
theorem drained_two : ∃ e₀ e₁ e : Engine Nat, Engine.init asyncConfig { smallCache with numBlocks := 8 } = .ok e₀ ∧
    e₀.run twoChats = .ok e₁ ∧ e₁.scheduler.running = [1, 2] ∧
    e₁.run [.setPauseState .pausedNew, .schedule {}, sampleAll 9, sampleAll 9, .schedule {}, sampleAll 9] = .ok e ∧
    ∀ r ∈ scheduledIn twoChats e₀, ∀ q, e.scheduler.requests.get? r = some q → q.isFinished = true := by
  refine ⟨_, _, _, rfl, rfl, rfl, rfl, drained twoChats
    [.schedule {}, sampleAll 9, sampleAll 9, .schedule {}, sampleAll 9] false false
    (show Engine.init asyncConfig { smallCache with numBlocks := 8 } = _ from rfl) rfl (fun r hr _ _ _ => hr)
    ⟨trivial, fun e₂ h => ?_⟩ rfl rfl rfl⟩
  cases h
  refine ⟨⟨rfl, fun s1 h1 => ?_⟩, fun e₃ h => ?_⟩
  · -- one more token of each request, in blocks that are free
    cases h1
    intro r q hr hb hq
    cases hr
    cases hq
    rw [if_neg (by decide)]
    intro plan p1 hp
    cases hp
    dsimp only
    rw [if_neg (by decide)]
    constructor
    · intro q hq
      cases hq
      intro c c' required h1 h2
      cases h1
      cases h2
      decide
    intro q blocks kv p2 hq halloc hrec
    cases hq
    cases halloc
    cases hrec
    intro r q hr hb hq
    cases hr
    cases hq
    rw [if_neg (by decide)]
    intro plan p1 hp
    cases hp
    dsimp only
    rw [if_neg (by decide)]
    refine ⟨fun q hq => ?_, fun _ _ _ _ _ _ _ => trivial⟩
    cases hq
    intro c c' required h1 h2
    cases h1
    cases h2
    decide
  cases h
  refine ⟨fun out hout r hr q hq => ?_, fun e₄ h => ?_⟩
  · cases hout
    rcases mem_pair.1 hr with rfl | rfl
    all_goals
      cases hq
      rfl
  cases h
  refine ⟨fun out hout r hr q hq => ?_, fun e₅ h => ?_⟩
  · cases hout
    rcases mem_pair.1 hr with rfl | rfl
    all_goals cases hq
  cases h
  refine ⟨⟨rfl, fun s1 h1 => ?_⟩, fun e₆ h => ?_⟩
  · cases h1
    trivial
  cases h
  refine ⟨fun out hout r hr => ?_, fun _ _ => trivial⟩
  cases hout
  cases hr

/-- The second step of the drain preempts request 2; when request 1 has finished the engine is idle. -/
theorem drained_with_preempted_left : ∃ e₀ e₁ e q, Engine.init asyncConfig smallCache = .ok e₀ ∧
    e₀.run [.addRequest {} (chat 1 false), .addRequest {} (chat 2 false), .schedule {}] = .ok e₁ ∧
    2 ∈ scheduledIn [.addRequest {} (chat 1 false), .addRequest {} (chat 2 false), .schedule {}] e₀ ∧
    e₁.scheduler.running = [1, 2] ∧
    e₁.run [.setPauseState .pausedNew, .schedule {}, sampleAll 5, sampleAll 9, .schedule {}, sampleAll 9] = .ok e ∧
    e.scheduler.pauseState = .pausedNew ∧ e.hasWork false false = false ∧ e.scheduler.waiting.items = [2] ∧
    e.scheduler.requests.get? 2 = some q ∧ q.status = .preempted ∧ q.isFinished = false :=
  ⟨_, _, _, _, rfl, rfl, by decide, rfl, rfl, rfl, rfl, rfl, rfl, rfl, rfl⟩

end Engine

end VllmCore
