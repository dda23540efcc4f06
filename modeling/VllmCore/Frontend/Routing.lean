import VllmCore.Lib.Dict
import VllmCore.Core.Request

/-! # Routing requests to data-parallel engines

`DPLBAsyncMPClient` picks an engine for each ADD by load, remembers it under the request id to route aborts, and
counts its requests on each engine. A request id that is added again while it is in flight is routed afresh. -/

namespace VllmCore
open Except List Dict

abbrev EngineIdentity := Nat

/-- An entry of `lb_engines`, as the coordinator publishes it. -/
structure EngineLoad where
  waiting : Nat := 0
  running : Nat := 0
  kvCacheUsage : ℚ := 0

/-- What routing looks at; `lateInteraction` is the answer of `get_late_interaction_engine_index`. -/
structure RoutedRequest where
  requestId : RequestId
  dataParallelRank : Option Nat := none
  lateInteraction : Option Nat := none

/-- What the engines and the client see of each other: messages with the engine they are sent to, and finishes. -/
inductive RouteEvent where
  | add (r : RequestId) (engine : EngineIdentity)
  | abort (rs : List RequestId) (engine : EngineIdentity)
  | finished (r : RequestId)
deriving DecidableEq, Repr

structure DPLBClient where
  coreEngines : List EngineIdentity
  clientCount : Nat
  engStartIndex : Nat
  lbEngines : List EngineLoad
  engineDead : Bool := false
  reqsInFlight : Dict RequestId EngineIdentity := Dict.empty
  engineInflight : EngineIdentity → Int := fun _ => 0
  trace : List RouteEvent := []

namespace DPLBClient
variable (c : DPLBClient)

def init (coreEngines : List EngineIdentity) (clientCount clientIndex : Nat) : DPLBClient where
  coreEngines
  clientCount
  engStartIndex := coreEngines.length * clientIndex / clientCount
  lbEngines := coreEngines.map fun _ => {}

/-- The load of an engine: the greater of the published count and the client's own, and a penalty for a queue on
an engine short of KV cache. -/
def score (c : DPLBClient) (engine : EngineIdentity) (load : EngineLoad) : ℚ :=
  let score : ℚ := max (c.clientCount * c.engineInflight engine) (load.waiting + load.running)
  if load.waiting = 0 then score else score + load.waiting * 6 * max 0 (load.kvCacheUsage - 1 / 2)

def scan (best : ℚ × Nat) (i : Nat) : Except Err (ℚ × Nat) :=
  let idx := (c.engStartIndex + i) % c.lbEngines.length
  match c.lbEngines[idx]?, c.coreEngines[idx]? with
  | some load, some engine => .ok (if c.score engine load < best.1 then (c.score engine load, idx) else best)
  | _, _ => .error .indexError

/-- The choice by load, with the local update of the counts. -/
def balance : Except Err (Nat × DPLBClient) := do
  let best ← (List.range c.lbEngines.length).foldlM c.scan (2 ^ 63 - 1, 0)
  match c.lbEngines[best.2]? with
  | none => .error .indexError
  | some load => pure (best.2, { c with
      lbEngines := c.lbEngines.set best.2 { load with waiting := load.waiting + c.clientCount }
      engStartIndex := (c.engStartIndex + 1) % c.lbEngines.length })

def engineIndex (request : RoutedRequest) : Except Err (Nat × DPLBClient) :=
  match request.dataParallelRank <|> request.lateInteraction with
  | some i => .ok (i, c)
  | none => c.balance

def getCoreEngineForRequest (request : RoutedRequest) : Except Err (EngineIdentity × DPLBClient) := do
  let (engIndex, c) ← c.engineIndex request
  match c.coreEngines[engIndex]? with
  | none => .error .indexError
  | some chosen => pure (chosen, { c with
      reqsInFlight := c.reqsInFlight.set request.requestId chosen
      engineInflight := Function.update c.engineInflight chosen (c.engineInflight chosen + 1) })

def addRequestAsync (request : RoutedRequest) : Except Err DPLBClient := do
  let (chosen, c) ← c.getCoreEngineForRequest request
  pure { c with trace := c.trace ++ [.add request.requestId chosen] }

def file (d : Dict EngineIdentity (List RequestId)) (r : RequestId) : Dict EngineIdentity (List RequestId) :=
  match c.reqsInFlight.get? r with
  | some engine => d.set engine (d.getD engine [] ++ [r])
  | none => d

def byEngine (requestIds : List RequestId) : Dict EngineIdentity (List RequestId) := requestIds.foldl c.file Dict.empty

def abortRequestsAsync (requestIds : List RequestId) : DPLBClient :=
  if requestIds = [] || c.engineDead then c
  else match requestIds with
    | [r] => match c.reqsInFlight.get? r with
      | some engine => { c with trace := c.trace ++ [.abort [r] engine] }
      | none => c
    | _ => { c with trace := c.trace ++ (c.byEngine requestIds).entries.map fun e => .abort e.2 e.1 }

def popFinished (r : RequestId) : DPLBClient :=
  match c.reqsInFlight.get? r with
  | some engine => { c with
      reqsInFlight := c.reqsInFlight.erase r
      engineInflight := Function.update c.engineInflight engine (c.engineInflight engine - 1)
      trace := c.trace ++ [.finished r] }
  | none => { c with trace := c.trace ++ [.finished r] }

/-- Without a request in flight every `pop` finds nothing, so the check of `reqs_in_flight` changes nothing. -/
def processEngineOutputs (finishedRequests : List RequestId) : DPLBClient := finishedRequests.foldl popFinished c

inductive Op where
  | addRequest (request : RoutedRequest)
  | abortRequests (requestIds : List RequestId)
  | engineOutputs (finishedRequests : List RequestId)
  | stats (counts : List EngineLoad)

def apply : Op → Except Err DPLBClient
  | .addRequest request => c.addRequestAsync request
  | .abortRequests ids => .ok (c.abortRequestsAsync ids)
  | .engineOutputs finished => .ok (c.processEngineOutputs finished)
  | .stats counts => .ok { c with lbEngines := counts }

def run (ops : List Op) : Except Err DPLBClient := ops.foldlM apply c

/-- The engine that received the first ADD of a request that has not finished since. -/
def ownerStep (r : RequestId) (owner : Option EngineIdentity) : RouteEvent → Option EngineIdentity
  | .add x engine => if x = r then owner <|> some engine else owner
  | .abort _ _ => owner
  | .finished x => if x = r then none else owner

def owner (r : RequestId) (trace : List RouteEvent) : Option EngineIdentity := trace.foldl (ownerStep r) none

/-- A message about a request in flight goes to the engine `target`. -/
def SentTo (r : RequestId) (target : EngineIdentity) : RouteEvent → Prop
  | .add x engine => x = r → engine = target
  | .abort rs engine => r ∈ rs → engine = target
  | .finished _ => True

/-- Every ADD and ABORT of an unfinished request goes to the engine of its first ADD. -/
def Routed (trace : List RouteEvent) : Prop :=
  ∀ before ev after, trace = before ++ ev :: after → ∀ r target, owner r before = some target → SentTo r target ev

def numInFlight (engine : EngineIdentity) : Nat := c.reqsInFlight.values.count engine

/-! ### The invariant -/

structure Tracks (c : DPLBClient) : Prop where
  counts : ∀ engine, c.engineInflight engine = c.numInFlight engine
  owners : ∀ r, c.reqsInFlight.get? r = owner r c.trace
  routed : Routed c.trace

variable {c} {c' : DPLBClient} {r : RequestId} {engine chosen : EngineIdentity} {request : RoutedRequest}

theorem owner_concat (r : RequestId) (t : List RouteEvent) (ev : RouteEvent) :
    owner r (t ++ [ev]) = ownerStep r (owner r t) ev := by
  unfold owner
  rw [foldl_append]
  rfl

theorem Routed.concat {t : List RouteEvent} {ev : RouteEvent} (h : Routed t)
    (hev : ∀ r target, owner r t = some target → SentTo r target ev) : Routed (t ++ [ev]) := by
  intro before x after he r target hr
  rcases eq_nil_or_concat' after with rfl | ⟨rest, y, rfl⟩
  · obtain ⟨rfl, hx⟩ := append_inj' he rfl
    cases hx
    exact hev r target hr
  · rw [← cons_append, ← append_assoc] at he
    obtain ⟨rfl, -⟩ := append_inj' he rfl
    exact h before x rest rfl r target hr

theorem numInFlight_eq (engine : EngineIdentity) :
    c.numInFlight engine = c.reqsInFlight.total fun _ e => if e = engine then 1 else 0 := by
  rw [total_ite]
  rfl

theorem Tracks.add (h : c.Tracks) (hnew : c.reqsInFlight.get? r = none) : ({ c with
      reqsInFlight := c.reqsInFlight.set r chosen
      engineInflight := Function.update c.engineInflight chosen (c.engineInflight chosen + 1)
      trace := c.trace ++ [.add r chosen] } : DPLBClient).Tracks where
  counts engine := by
    have hset := c.reqsInFlight.total_set (fun _ e => if e = engine then 1 else 0) r chosen
    rw [hnew, Option.elim_none] at hset
    rw [numInFlight_eq]
    have hold := h.counts engine
    rw [numInFlight_eq] at hold
    dsimp only
    by_cases he : chosen = engine
    · subst he
      rw [Function.update_self, hold]
      rw [if_pos rfl] at hset
      omega
    · rw [Function.update_of_ne (Ne.symm he), hold]
      rw [if_neg he] at hset
      omega
  owners x := by
    rw [get?_set, owner_concat, ← h.owners]
    dsimp only [ownerStep]
    by_cases hx : x = r
    · rw [if_pos hx, if_pos hx.symm, hx, hnew]
      rfl
    · rw [if_neg hx, if_neg (Ne.symm hx)]
  routed := by
    refine h.routed.concat fun x target hx => ?_
    rintro rfl
    rw [← h.owners, hnew] at hx
    cases hx

theorem Tracks.popFinished (h : c.Tracks) (r : RequestId) : (c.popFinished r).Tracks := by
  have hrouted : Routed (c.trace ++ [.finished r]) := h.routed.concat fun _ _ _ => trivial
  have howner : ∀ x, owner x (c.trace ++ [.finished r]) = if x = r then none else c.reqsInFlight.get? x := by
    intro x
    rw [owner_concat, ← h.owners]
    exact if_congr eq_comm rfl rfl
  unfold DPLBClient.popFinished
  split
  · next engine hr =>
    refine ⟨fun e => ?_, fun x => ?_, hrouted⟩
    · have herase := c.reqsInFlight.total_erase (fun _ x => if x = e then 1 else 0) r
      rw [hr, Option.elim_some] at herase
      have hold := h.counts e
      rw [numInFlight_eq] at hold
      rw [numInFlight_eq]
      dsimp only
      by_cases he : engine = e
      · subst he
        rw [Function.update_self, hold]
        rw [if_pos rfl] at herase
        omega
      · rw [Function.update_of_ne (Ne.symm he), hold]
        rw [if_neg he] at herase
        omega
    · exact (get?_erase ..).trans (howner x).symm
  · next hr =>
    refine ⟨h.counts, fun x => ?_, hrouted⟩
    rw [howner]
    by_cases hx : x = r
    · rw [if_pos hx, hx]
      exact hr
    · rw [if_neg hx]

theorem Tracks.abort {rs : List RequestId} (h : c.Tracks) (hrs : ∀ r ∈ rs, c.reqsInFlight.get? r = some engine) :
    ({ c with trace := c.trace ++ [.abort rs engine] } : DPLBClient).Tracks where
  counts := h.counts
  owners x := by
    rw [owner_concat]
    exact h.owners x
  routed := by
    refine h.routed.concat fun x target hx hmem => ?_
    rw [← h.owners, hrs x hmem] at hx
    exact Option.some.inj hx

theorem Tracks.aborts {l : List (EngineIdentity × List RequestId)} (h : c.Tracks)
    (hl : ∀ e ∈ l, ∀ r ∈ e.2, c.reqsInFlight.get? r = some e.1) :
    ({ c with trace := c.trace ++ l.map fun e => .abort e.2 e.1 } : DPLBClient).Tracks := by
  induction l generalizing c with
  | nil => simpa using h
  | cons e l ih =>
    have hone := h.abort (hl e mem_cons_self)
    have hrest := ih hone fun x hx => hl x (mem_cons_of_mem _ hx)
    simpa [append_assoc] using hrest

theorem byEngine_routed (ids : List RequestId) :
    ∀ e ∈ (c.byEngine ids).entries, ∀ r ∈ e.2, c.reqsInFlight.get? r = some e.1 := by
  have hloop : ∀ x rs, (c.byEngine ids).get? x = some rs → ∀ r ∈ rs, c.reqsInFlight.get? r = some x := by
    refine List.foldlRecOn ids c.file (motive := fun d : Dict EngineIdentity (List RequestId) =>
      ∀ x rs, d.get? x = some rs → ∀ r ∈ rs, c.reqsInFlight.get? r = some x) nofun fun d hd r _ => ?_
    unfold file
    split
    · next engine hr =>
      intro x rs hx y hy
      rw [get?_set] at hx
      split at hx
      · next he =>
        cases hx
        rcases mem_append.1 hy with hy | hy
        · unfold Dict.getD at hy
          cases hold : d.get? engine with
          | none => rw [hold] at hy; cases hy
          | some l => rw [hold] at hy; exact he ▸ hd engine l hold y hy
        · rw [mem_singleton.1 hy, hr, he]
      · exact hd x rs hx y hy
    · exact hd
  exact fun e he => hloop e.1 e.2 (mem_entries.1 he)

def AddsNew (c : DPLBClient) : Op → Prop
  | .addRequest request => c.reqsInFlight.get? request.requestId = none
  | _ => True

theorem engineIndex_eq {i : Nat} (h : c.engineIndex request = .ok (i, c')) :
    ∃ lb start, c' = { c with lbEngines := lb, engStartIndex := start } := by
  unfold engineIndex at h
  split at h
  · cases h
    exact ⟨_, _, rfl⟩
  · simp only [balance, bind_eq_ok] at h
    obtain ⟨best, -, h⟩ := h
    split at h
    · cases h
    · cases h
      exact ⟨_, _, rfl⟩

theorem Tracks.addRequestAsync (h : c.Tracks) (hnew : c.reqsInFlight.get? request.requestId = none)
    (hstep : c.addRequestAsync request = .ok c') : c'.Tracks := by
  simp only [DPLBClient.addRequestAsync, getCoreEngineForRequest, do_eq_ok] at hstep
  obtain ⟨⟨chosen, c2⟩, ⟨⟨i, c1⟩, h1, h2⟩, rfl⟩ := hstep
  obtain ⟨lb, start, rfl⟩ := engineIndex_eq h1
  dsimp only at h2
  split at h2
  · cases h2
  · cases h2
    have hbalanced : ({ c with lbEngines := lb, engStartIndex := start } : DPLBClient).Tracks := { h with }
    exact hbalanced.add hnew

theorem Tracks.apply {op : Op} (h : c.Tracks) (hK : c.AddsNew op) (hstep : c.apply op = .ok c') : c'.Tracks := by
  cases op with
  | addRequest request => exact h.addRequestAsync hK hstep
  | abortRequests ids =>
    cases hstep
    unfold abortRequestsAsync
    split
    · exact h
    split
    · next r =>
      split
      · next engine hr => exact h.abort fun x hx => by rw [mem_singleton.1 hx]; exact hr
      · exact h
    · exact h.aborts (c.byEngine_routed ids)
  | engineOutputs finished =>
    cases hstep
    unfold processEngineOutputs
    induction finished generalizing c with
    | nil => exact h
    | cons r finished ih => exact ih (h.popFinished r) trivial
  | stats counts => cases hstep; exact { h with }

/-- Along every run whose adds bring ids that are not in flight, the counts are those of the map, and every message
about an unfinished request goes to the engine of its first ADD. -/
theorem routing_consistent (coreEngines : List EngineIdentity) (clientCount clientIndex : Nat) (ops : List Op)
    (hK : ops.Along apply AddsNew (init coreEngines clientCount clientIndex))
    (hrun : (init coreEngines clientCount clientIndex).run ops = .ok c) :
    (∀ engine, c.engineInflight engine = c.numInFlight engine) ∧ Routed c.trace := by
  have hinit : (init coreEngines clientCount clientIndex).Tracks := by
    refine ⟨fun _ => rfl, fun _ => rfl, fun before ev after he => ?_⟩
    cases before with
    | nil => cases he
    | cons _ _ => cases he
  have hend := hK.inv (P := Tracks) (fun _ _ _ h hK hstep => h.apply hK hstep) hrun hinit
  exact ⟨hend.counts, hend.routed⟩

def pinnedOps : List Op :=
  [.addRequest { requestId := 7, dataParallelRank := some 1 },
    .addRequest { requestId := 8, dataParallelRank := some 0 }, .abortRequests [7, 8], .engineOutputs [8]]

theorem routing_consistent_pinned : ∃ c, (init [0, 1] 1 0).run pinnedOps = .ok c ∧
    c.trace = [.add 7 1, .add 8 0, .abort [7] 1, .abort [8] 0, .finished 8] ∧
    (∀ engine, c.engineInflight engine = c.numInFlight engine) ∧ Routed c.trace := by
  refine ⟨_, rfl, rfl, routing_consistent [0, 1] 1 0 pinnedOps ?_ rfl⟩
  refine ⟨rfl, fun c1 h1 => ?_⟩
  cases h1
  exact ⟨rfl, fun c2 _ => ⟨trivial, fun c3 _ => ⟨trivial, fun _ _ => trivial⟩⟩⟩

def firstChunk : DPLBClient :=
  { init [0, 1] 1 0 with
    lbEngines := [{ waiting := 1 }, {}], engStartIndex := 1, reqsInFlight := Dict.empty.set 7 0
    engineInflight := Function.update (fun _ => 0) 0 1, trace := [.add 7 0] }

/-- The second chunk of a session goes to the other engine, and the first engine keeps its count. -/
theorem second_chunk_rerouted : ∃ c, (init [0, 1] 1 0).run [.addRequest { requestId := 7 },
      .addRequest { requestId := 7 }] = .ok c ∧
    c.trace = [.add 7 0, .add 7 1] ∧ ¬ Routed c.trace ∧ c.engineInflight 0 = 1 ∧ c.numInFlight 0 = 0 := by
  have hfirst : (List.range 2).foldlM (init [0, 1] 1 0).scan (2 ^ 63 - 1, 0) = .ok (0, 0) := by decide +kernel
  have hsecond : (List.range 2).foldlM firstChunk.scan (2 ^ 63 - 1, 0) = .ok (0, 1) := by decide +kernel
  have h1 : (init [0, 1] 1 0).addRequestAsync { requestId := 7 } = .ok firstChunk := by
    simp only [addRequestAsync, getCoreEngineForRequest, engineIndex, balance,
      show (init [0, 1] 1 0).lbEngines.length = 2 from rfl, hfirst]
    rfl
  have h2 : ∃ c, firstChunk.addRequestAsync { requestId := 7 } = .ok c ∧ c.trace = [.add 7 0, .add 7 1] ∧
      c.engineInflight 0 = 1 ∧ c.numInFlight 0 = 0 := by
    simp only [addRequestAsync, getCoreEngineForRequest, engineIndex, balance,
      show firstChunk.lbEngines.length = 2 from rfl, hsecond]
    exact ⟨_, rfl, rfl, rfl, rfl⟩
  obtain ⟨c, h2, htrace, hcount, hnum⟩ := h2
  refine ⟨c, ?_, htrace, fun hr => ?_, hcount, hnum⟩
  · simp only [run, foldlM_cons, DPLBClient.apply, h1, h2, ok_bind]
    rfl
  · have hlast := hr [.add 7 0] (.add 7 1) [] htrace 7 0 rfl rfl
    cases hlast

end DPLBClient

end VllmCore
