import VllmCore.Core.WindowTables

/-! # Freeing behind the window

What the calls of a KV-cache manager do to the tables of one windowed group, against a record of how far each
request has been processed. -/

namespace VllmCore
open Except List Coordinator
variable {η : Type} {hits : List (List BlockId)} {n nl pr n' ne : Nat} {bs bs' : List BlockId} {np : Option Nat}

/-! ### One manager of a coordinator -/

namespace Coordinator
variable {c c' : Coordinator η} {p p' : BlockPool η} {ms ms' : List (Manager η)} {m : Manager η} {i j g : Nat}
  {R : BlockId → Nat}

theorem traverse_at {α : Type} {as : List α}
    {f : Nat → Manager η → BlockPool η → Except Err (α × Manager η × BlockPool η)}
    (hf : ∀ i m p a m' p', f i m p = .ok (a, m', p') → Manager.Works m p m' p')
    (h : traverse f i ms p = .ok (as, ms', p')) (ha : p.Accounts (heldBy ms + R)) (hj : ms[j]? = some m) :
    ∃ a m' q q' S, ms'[j]? = some m' ∧ q.Accounts (m.held + S) ∧ f (i + j) m q = .ok (a, m', q') := by
  induction ms generalizing i j p as ms' R with
  | nil => cases hj
  | cons m₀ ms ih =>
    simp only [traverse, do_eq_ok] at h
    obtain ⟨⟨a, m₁, p₁⟩, h₁, ⟨as', ms₁, p₂⟩, h₂, h⟩ := h
    cases h
    have hR₁ : heldBy (m₀ :: ms) + R = m₀.held + (heldBy ms + R) := by rw [heldBy_cons]; ac_rfl
    cases j with
    | zero =>
      cases hj
      exact ⟨a, m₁, p, p₁, heldBy ms + R, rfl, hR₁ ▸ ha, h₁⟩
    | succ j =>
      obtain ⟨ha₁, -⟩ := (hf i m₀ p a m₁ p₁ h₁).conserves _ (hR₁ ▸ ha)
      have hR₂ : m₁.held + (heldBy ms + R) = heldBy ms + (m₁.held + R) := by ac_rfl
      obtain ⟨b, m', q, q', S, h3, h4, h5⟩ := ih h₂ (hR₂ ▸ ha₁) hj
      exact ⟨b, m', q, q', S, h3, h4, by rwa [Nat.add_assoc, Nat.add_comm 1 j] at h5⟩

theorem forManagers_at {f : Nat → Manager η → BlockPool η → Except Err (Manager η × BlockPool η)}
    (hf : ∀ i m p m' p', f i m p = .ok (m', p') → Manager.Works m p m' p')
    (h : c.forManagers f = .ok c') (ha : c.pool.Accounts (heldBy c.managers + R)) (hg : c.managers[g]? = some m) :
    ∃ m' q q' S, c'.managers[g]? = some m' ∧ q.Accounts (m.held + S) ∧ f g m q = .ok (m', q') := by
  obtain ⟨us, h, heach⟩ := forManagers_eq h
  obtain ⟨a, m', q, q', S, h1, h2, h3⟩ :=
    traverse_at (fun i m p a m' p' h₁ => hf i m p m' p' (heach i m p a m' p' h₁)) h ha hg
  rw [Nat.zero_add] at h3
  exact ⟨m', q, q', S, h1, h2, heach g m q a m' q' h3⟩

end Coordinator

/-! ### The tables of a manager -/

namespace Manager
variable {m m' : Manager η} {p p' : BlockPool η} {r : RequestId} {floor prompt : RequestId → Nat}

/-- Every table is null before some entry in front of the window of its `floor`. -/
def Windows (m : Manager η) (floor prompt : RequestId → Nat) : Prop :=
  ∀ x, ∃ z, WindowTable m.spec (prompt x) (floor x) (m.blocksOf x) z

theorem Windows.table (h : m.Windows floor prompt) (hs : m'.spec = m.spec)
    (hb : ∀ x, m'.blocksOf x = if x = r then bs else m.blocksOf x) (hr : ∃ z, WindowTable m.spec pr n bs z) :
    m'.Windows (Function.update floor r n) (Function.update prompt r pr) := by
  intro x
  rw [hs, hb]
  by_cases hx : x = r
  · subst hx
    rw [if_pos rfl, Function.update_self, Function.update_self]
    exact hr
  · rw [if_neg hx, Function.update_of_ne hx, Function.update_of_ne hx]
    exact h x

theorem Windows.raise (h : m.Windows floor prompt) (hn : floor r ≤ n) :
    m.Windows (Function.update floor r n) prompt := by
  intro x
  obtain ⟨z, hz⟩ := h x
  by_cases hx : x = r
  · subst hx
    rw [Function.update_self]
    exact ⟨z, hz.mono hn⟩
  · rw [Function.update_of_ne hx]
    exact ⟨z, hz⟩

theorem Windows.raise_update (h : m.Windows (Function.update floor r n) prompt) (hn : n ≤ n') :
    m.Windows (Function.update floor r n') prompt := by
  have := h.raise (r := r) (n := n') (by rw [Function.update_self]; exact hn)
  rwa [Function.update_idem] at this

/-- A call with `n` processed tokens does not fall behind the table of its request; R-SWA has to see the same
prompt. -/
def NotBehind (m : Manager η) (floor prompt : RequestId → Nat) (r : RequestId) (n pr : Nat) : Prop :=
  m.blocksOf r = [] ∨ floor r ≤ n ∧ (prompt r = pr ∨ ∀ w, m.spec.kind ≠ .rswa w)

theorem Windows.of_notBehind (h : m.Windows floor prompt) (hf : m.NotBehind floor prompt r n pr) :
    ∃ z, WindowTable m.spec pr n (m.blocksOf r) z := by
  rcases hf with hnil | ⟨hle, hprompt⟩
  · rw [hnil]
    exact ⟨0, .nil ..⟩
  · obtain ⟨z, hz⟩ := h r
    refine ⟨z, ?_⟩
    rcases hprompt with rfl | hk
    · exact hz.mono hle
    · exact (hz.mono hle).of_not_rswa hk

theorem Windows.advance (h : m.Windows floor prompt) (hf : m.NotBehind floor prompt r n pr) (hn : n ≤ n') :
    m.Windows (Function.update floor r n') (Function.update prompt r pr) := by
  obtain ⟨z, hz⟩ := h.of_notBehind hf
  refine h.table rfl (fun x => ?_) ⟨z, hz.mono hn⟩
  split
  · next hx => rw [hx]
  · rfl

theorem Windows.removeSkippedBlocks (h : m.Windows floor prompt) (hw : m.spec.windowed = true)
    (hnp : np = some pr ∨ ∀ w, m.spec.kind ≠ .rswa w) (hf : m.NotBehind floor prompt r n pr)
    (hstep : m.removeSkippedBlocks p r n np = .ok (m', p')) :
    m'.Windows (Function.update floor r n) (Function.update prompt r pr) ∧ m'.spec = m.spec ∧
      ∃ z, WindowTable m.spec pr n (m'.blocksOf r) z ∧
        min (m.spec.skippedTo pr n / m.spec.blockSize) (m'.blocksOf r).length ≤ z := by
  obtain ⟨hs, hb⟩ := removeSkippedBlocks_blocksOf hw hnp hstep
  obtain ⟨z, hz⟩ := h.of_notBehind hf
  have hz' := hz.removeLoop (Nat.le_refl n) rfl
  have hr := hb r
  rw [if_pos rfl] at hr
  rw [hr, length_removeLoop]
  exact ⟨h.table hs hb ⟨_, hz'⟩, hs, _, hz', Nat.le_max_right ..⟩

theorem skipped_le_attended (hw : m.spec.windowed = true) (pr : Nat) :
    m.getNumSkippedTokens n / m.spec.blockSize ≤ m.spec.gapStart pr ∨
      m.spec.gapStart pr = 0 ∧ m.getNumSkippedTokens n ≤ m.spec.attendedFrom n := by
  cases hk : m.spec.kind with
  | slidingWindow w extra =>
    simp only [getNumSkippedTokens, KVCacheSpec.gapStart, KVCacheSpec.attendedFrom, hk]
    exact .inr ⟨trivial, by omega⟩
  | chunkedLocal c =>
    simp only [getNumSkippedTokens, KVCacheSpec.gapStart, KVCacheSpec.attendedFrom, hk]
    exact .inr ⟨trivial, Nat.le_refl _⟩
  | rswa w =>
    simp only [getNumSkippedTokens, hk, Nat.zero_div]
    exact .inl (Nat.zero_le _)
  | _ => simp [KVCacheSpec.windowed, hk] at hw

/-- The hits of an admitted request behind the padding for what is skipped. -/
def paddedHits (m : Manager η) (hits : List BlockId) (n : Nat) : List BlockId :=
  List.replicate (m.getNumSkippedTokens n / m.spec.blockSize) nullBlock ++
    hits.drop (m.getNumSkippedTokens n / m.spec.blockSize)

theorem paddedHits_windowTable {hits : List BlockId} (hw : m.spec.windowed = true)
    (hhits : ∃ z, WindowTable m.spec pr n hits z) : ∃ z, WindowTable m.spec pr n (m.paddedHits hits n) z := by
  obtain ⟨z, hz⟩ := hhits
  have hpos := m.spec.blockSize_pos
  unfold paddedHits
  generalize hk : m.getNumSkippedTokens n / m.spec.blockSize = k
  by_cases h0 : k = 0
  · subst h0
    exact ⟨z, by simpa using hz⟩
  · cases hkind : m.spec.kind with
    | rswa w =>
      simp only [getNumSkippedTokens, hkind, Nat.zero_div] at hk
      exact absurd hk.symm h0
    | slidingWindow w extra | chunkedLocal c =>
      have hgap : m.spec.gapStart pr = 0 := by simp [KVCacheSpec.gapStart, hkind]
      have hskip : k * m.spec.blockSize ≤ m.spec.attendedFrom n := by
        rcases skipped_le_attended (n := n) hw pr with hle | ⟨-, hle⟩
        · omega
        · rw [← hk]; exact (Nat.div_mul_le_self ..).trans hle
      obtain ⟨h1, h2, h3⟩ := hz
      rw [hgap] at h1 h2 h3
      refine ⟨max k z, by rw [hgap]; exact h1.pad k, ?_, .inr ?_⟩
      · rw [length_append, length_replicate, length_drop]
        omega
      · rcases Nat.le_total k z with hkz | hzk
        · rw [Nat.max_eq_right hkz]
          exact h3.elim (fun hz0 => by omega) id
        · rw [Nat.max_eq_left hzk]; exact hskip
    | _ => simp [KVCacheSpec.windowed, hkind] at hw

end Manager

/-- What `allocate_new_blocks` does to a table: a partial hit moves to its copy, and new blocks come behind. -/
structure Grown (bs bs' : List BlockId) (n : Nat) : Prop where
  blocks : ∃ first rest, bs' = first ++ rest ∧ (∀ b ∈ rest, b ≠ nullBlock) ∧
    (first = bs ∨ ∃ (i : Nat) (source cow : BlockId), bs[i]? = some source ∧ source ≠ nullBlock ∧ cow ≠ nullBlock ∧
      first = bs.set i cow)
  length : bs'.length = max bs.length n

theorem WindowTable.grown {s : KVCacheSpec} {prompt floor z : Nat} (h : WindowTable s prompt floor bs z)
    (hg : Grown bs bs' n) : WindowTable s prompt floor bs' z := by
  obtain ⟨first, rest, rfl, hrest, hfirst⟩ := hg.blocks
  rcases hfirst with rfl | ⟨i, source, cow, h1, h2, h3, rfl⟩
  · exact h.append hrest
  · exact (h.set h1 h2 h3).append hrest

def Manager.WithComputed (m : Manager η) (hits : List BlockId) (nl ne : Nat) (bs : List BlockId) : Prop :=
  ∃ ext, (∀ b ∈ ext, b ≠ nullBlock) ∧ bs = m.paddedHits hits (nl + ne) ++ ext ∧
    bs.length ≤ max (m.paddedHits hits (nl + ne)).length (cdiv (nl + ne) m.spec.blockSize)

theorem Manager.WithComputed.windowTable {m : Manager η} {hits : List BlockId} (h : m.WithComputed hits nl ne bs)
    (hw : m.spec.windowed = true) (hhits : ∃ z, WindowTable m.spec pr (nl + ne) hits z) :
    ∃ z, WindowTable m.spec pr (nl + ne) bs z := by
  obtain ⟨ext, hext, rfl, -⟩ := h
  obtain ⟨z, hz⟩ := Manager.paddedHits_windowTable hw hhits
  exact ⟨z, hz.append hext⟩

/-! ### Whole calls -/

namespace Coordinator
variable [DecidableEq η] {c c' : Coordinator η} {m : Manager η} {r : RequestId} {g : Nat} {R : BlockId → Nat}
  {floor prompt : RequestId → Nat}

theorem getNumBlocksToAllocate_at {nt enc tot main : Nat} {cap : Bool} {n : Int}
    (h : c.getNumBlocksToAllocate r nt hits enc tot nl main cap = .ok (n, c'))
    (ha : c.pool.Accounts (heldBy c.managers + R)) (hg : c.managers[g]? = some m) (hgr : m.spec.growing = true) :
    c'.managers[g]? = some m := by
  obtain ⟨ns, h⟩ := getNumBlocksToAllocate_eq h
  obtain ⟨a, m', q, q', S, h1, -, h3⟩ := traverse_at (fun _ _ _ _ _ _ h1 => managerNumBlocksToAllocate_works h1) h ha hg
  obtain ⟨-, _, _, _, _, _, h3⟩ := managerNumBlocksToAllocate_eq h3
  have hm : m' = m := (Manager.getNumBlocksToAllocate_same h3).2.2 fun s hk => by simp [KVCacheSpec.growing, hk] at hgr
  exact hm ▸ h1

omit [DecidableEq η] in
theorem removeSkippedBlocks_at (h : c.removeSkippedBlocks r n np = .ok c')
    (ha : c.pool.Accounts (heldBy c.managers + R)) (hg : c.managers[g]? = some m) :
    ∃ m' q q', c'.managers[g]? = some m' ∧ m.removeSkippedBlocks q r n np = .ok (m', q') := by
  obtain ⟨m', q, q', S, h1, -, h3⟩ := forManagers_at (fun _ _ _ _ _ h1 => (Manager.removeSkippedBlocks_works h1).1)
    h ha hg
  exact ⟨m', q, q', h1, h3⟩

def tracks (c : Coordinator η) (r : RequestId) : Bool := c.managers.any fun m => m.numCachedBlock.contains r

omit [DecidableEq η] in
theorem traverse_map {α β : Type} {φ : Manager η → β} {f : Nat → Manager η → BlockPool η →
    Except Err (α × Manager η × BlockPool η)}
    {i : Nat} {as : List α} {ms ms' : List (Manager η)} {p p' : BlockPool η}
    (hf : ∀ i m p a m' p', f i m p = .ok (a, m', p') → φ m' = φ m) (h : traverse f i ms p = .ok (as, ms', p')) :
    ms'.map φ = ms.map φ := by
  induction ms generalizing i p as ms' with
  | nil => cases h; rfl
  | cons m ms ih =>
    simp only [traverse, do_eq_ok] at h
    obtain ⟨⟨a, m₁, p₁⟩, h₁, ⟨as', ms₁, p₂⟩, h₂, h⟩ := h
    cases h
    rw [map_cons, map_cons, hf i m p a m₁ p₁ h₁, ih h₂]

omit [DecidableEq η] in
theorem tracks_congr (h : c'.managers.map (·.numCachedBlock) = c.managers.map (·.numCachedBlock)) (r : RequestId) :
    c'.tracks r = c.tracks r := by
  have := congrArg (fun l => l.any fun d => d.contains r) h
  simp only [any_map] at this
  exact this

omit [DecidableEq η] in
theorem removeSkippedBlocks_tracks (h : c.removeSkippedBlocks r n np = .ok c') (x : RequestId) :
    c'.tracks x = c.tracks x := by
  obtain ⟨us, h, heach⟩ := forManagers_eq h
  exact tracks_congr (traverse_map (fun i m p a m' p' h1 => (Manager.removeSkippedBlocks_works
    (heach i m p a m' p' h1)).2) h) x

theorem getNumBlocksToAllocate_tracks {nt enc tot main : Nat} {cap : Bool} {n : Int}
    (h : c.getNumBlocksToAllocate r nt hits enc tot nl main cap = .ok (n, c')) (x : RequestId) :
    c'.tracks x = c.tracks x := by
  obtain ⟨ns, h⟩ := getNumBlocksToAllocate_eq h
  refine tracks_congr (traverse_map (fun i m p a m' p' h1 => ?_) h) x
  obtain ⟨-, _, _, _, _, _, h1⟩ := managerNumBlocksToAllocate_eq h1
  exact (Manager.getNumBlocksToAllocate_same h1).2.1

theorem allocateNewComputedBlocks_at (h : c.allocateNewComputedBlocks r hits nl ne = .ok c')
    (ha : c.pool.Accounts (heldBy c.managers + R)) (hg : c.managers[g]? = some m) (hgr : m.spec.growing = true) :
    ∃ m', c'.managers[g]? = some m' ∧ m'.spec = m.spec ∧ (∀ x, x ≠ r → m'.blocksOf x = m.blocksOf x) ∧
      (c.tracks r = true ∧ m'.blocksOf r = m.blocksOf r ∨
        ∃ bs, hits[g]? = some bs ∧ m.blocksOf r = [] ∧ Manager.WithComputed m bs nl ne (m'.blocksOf r)) := by
  unfold allocateNewComputedBlocks at h
  split at h
  · next htracks =>
    split at h
    · cases h
      exact ⟨m, hg, rfl, fun _ _ => rfl, .inl ⟨htracks, rfl⟩⟩
    · cases h
  · rw [bind_eq_ok] at h
    obtain ⟨c₁, h₁, h⟩ := h
    have ha₁ := (forManagers_conserves (fun _ _ _ _ _ h1 => addHits_works h1) h₁ R ha).1
    obtain ⟨m₁, q, q', S, hm₁, -, hadd⟩ := forManagers_at (fun _ _ _ _ _ h1 => addHits_works h1) h₁ ha hg
    rw [bind_eq_ok] at hadd
    obtain ⟨bs, hbs, hadd⟩ := hadd
    obtain ⟨hnil, hs₁, hb₁⟩ := Manager.addLocalComputedBlocks_blocksOf hgr hadd
    have hr₁ := hb₁ r
    rw [if_pos rfl] at hr₁
    split at h
    · cases pure_eq_ok.1 h
      refine ⟨m₁, hm₁, hs₁, fun x hx => by rw [hb₁, if_neg hx], .inr ⟨bs, hitsOf_eq_ok.1 hbs, hnil, [], ?_, ?_, ?_⟩⟩
      · rintro _ ⟨⟩
      · rw [hr₁, append_nil]; rfl
      · rw [hr₁]; exact Nat.le_max_left ..
    · obtain ⟨m₂, q₂, q₂', S₂, hm₂, ha₂, hext⟩ :=
        forManagers_at (fun _ _ _ _ _ h1 => Manager.allocateExternalComputedBlocks_works h1) h ha₁ hm₁
      obtain ⟨ext, hreal, hlen, hs₂, hb₂⟩ := Manager.allocateExternalComputedBlocks_blocksOf (hs₁ ▸ hgr) ha₂ hext
      have hr₂ := hb₂ r
      rw [if_pos rfl, hr₁] at hr₂
      rw [hr₁, hs₁] at hlen
      refine ⟨m₂, hm₂, hs₂.trans hs₁, fun x hx => by rw [hb₂, if_neg hx, hb₁, if_neg hx],
        .inr ⟨bs, hitsOf_eq_ok.1 hbs, hnil, ext, hreal, hr₂, by rw [hr₂]; exact hlen⟩⟩

theorem allocateNewBlocks_at {nt main enc : Nat} {bs : List (List BlockId)}
    (h : c.allocateNewBlocks r nt main enc = .ok (bs, c')) (ha : c.pool.Accounts (heldBy c.managers + R))
    (hg : c.managers[g]? = some m) (hgr : m.spec.growing = true) :
    ∃ m' q q' new S, c'.managers[g]? = some m' ∧ q.Accounts (m.held + S) ∧
      m.allocateNewBlocks q r nt main = .ok (new, m', q') := by
  simp only [allocateNewBlocks, do_eq_ok] at h
  obtain ⟨⟨ns, ms, p⟩, h, he⟩ := h
  cases he
  obtain ⟨a, m', q, q', S, h1, h2, h3⟩ :=
    traverse_at (fun _ _ _ _ _ _ h1 => Manager.allocateNewBlocks_works h1) h ha hg
  have hcross : m.spec.isCrossAttention = false := by
    unfold KVCacheSpec.growing at hgr
    unfold KVCacheSpec.isCrossAttention
    split at hgr <;> simp_all
  rw [hcross, if_neg Bool.false_ne_true] at h3
  exact ⟨m', q, q', a, S, h1, h2, h3⟩

theorem cacheBlocks_at {request : Request η} (h : c.cacheBlocks request n = .ok c')
    (ha : c.pool.Accounts (heldBy c.managers + R)) (hg : c.managers[g]? = some m) :
    ∃ m', c'.managers[g]? = some m' ∧ m'.spec = m.spec ∧ ∀ x, m'.blocksOf x = m.blocksOf x := by
  obtain ⟨m', q, q', S, h1, -, h3⟩ := forManagers_at (fun _ _ _ _ _ h1 => Manager.cacheBlocks_works h1) h ha hg
  exact ⟨m', h1, (Manager.cacheBlocks_same h3).1.spec, (Manager.cacheBlocks_same h3).1.tables⟩

end Coordinator

namespace KVCacheManager
variable [DecidableEq η] {k k' : KVCacheManager η} {request : Request η} {a : AllocArgs} {m : Manager η} {g : Nat}
  {R : BlockId → Nat} {floor prompt : RequestId → Nat}

def processedTokens (k : KVCacheManager η) (request : Request η) (a : AllocArgs) : Nat :=
  ((k.totalComputedTokens request a : Int) - request.numInFlightTokens).toNat

/-- How far the table of the request is processed after the call: hits and external blocks are added for all
computed tokens. -/
def floorAfter (k : KVCacheManager η) (request : Request η) (a : AllocArgs) : Nat :=
  if a.newComputedBlocks.isSome ∨ a.numExternalComputedTokens > 0 then
    max (k.processedTokens request a) (numLocalComputedTokens request a + a.numExternalComputedTokens)
  else k.processedTokens request a

omit [DecidableEq η] in
theorem processedTokens_le_floorAfter : k.processedTokens request a ≤ k.floorAfter request a := by
  unfold floorAfter
  split
  · exact Nat.le_max_left ..
  · exact Nat.le_refl _

/-- What a call of `allocate_slots` is to respect for the group: it does not fall behind the table, and the null
heads of its hits are before the window of its computed tokens. -/
structure KeepsWindow (m : Manager η) (g : Nat) (floor prompt : RequestId → Nat) (k : KVCacheManager η)
    (request : Request η) (a : AllocArgs) : Prop where
  notBehind : m.NotBehind floor prompt request.requestId (k.processedTokens request a) request.numPromptTokens
  heads : ∀ hits ∈ a.newComputedBlocks, ∀ bs, hits[g]? = some bs →
    ∃ z, WindowTable m.spec request.numPromptTokens
      (numLocalComputedTokens request a + a.numExternalComputedTokens) bs z

omit [DecidableEq η] in
theorem KeepsWindow.head (h : KeepsWindow m g floor prompt k request a)
    (hbs : (a.newComputedBlocks.getD k.emptyKvCacheBlocks)[g]? = some bs) :
    ∃ z, WindowTable m.spec request.numPromptTokens
      (numLocalComputedTokens request a + a.numExternalComputedTokens) bs z := by
  cases hc : a.newComputedBlocks with
  | none =>
    rw [hc, Option.getD_none, emptyKvCacheBlocks, getElem?_map, Option.map_eq_some_iff] at hbs
    obtain ⟨_, -, rfl⟩ := hbs
    exact ⟨0, .nil ..⟩
  | some hits =>
    rw [hc, Option.getD_some] at hbs
    exact h.heads hits (by simp [hc]) bs hbs

section
variable {fits : Bool} {c : Coordinator η} (h : k.fullSequenceFits request a hits = .ok (fits, c))
include h

theorem fullSequenceFits_at (ha : k.pool.Accounts (heldBy k.coordinator.managers + R))
    (hg : k.coordinator.managers[g]? = some m) (hgr : m.spec.growing = true) : c.managers[g]? = some m := by
  unfold fullSequenceFits at h
  split at h
  · simp only [do_eq_ok] at h
    obtain ⟨⟨n, c₁⟩, h₁, he⟩ := h
    cases he
    exact getNumBlocksToAllocate_at h₁ ha hg hgr
  · cases h; exact hg

theorem fullSequenceFits_tracks (x : RequestId) : c.tracks x = k.coordinator.tracks x := by
  unfold fullSequenceFits at h
  split at h
  · simp only [do_eq_ok] at h
    obtain ⟨⟨n, c₁⟩, h₁, he⟩ := h
    cases he
    exact getNumBlocksToAllocate_tracks h₁ x
  · cases h; rfl

end

/-- The table of a request before new blocks are allocated. It stays as it is without hits and external tokens,
or if the request is tracked. -/
inductive ComputedTable (k : KVCacheManager η) (request : Request η) (a : AllocArgs) (m : Manager η) (g : Nat) :
    List BlockId → List BlockId → Prop
  | kept {bs : List BlockId} (h : ¬ (a.newComputedBlocks.isSome ∨ a.numExternalComputedTokens > 0) ∨
      k.coordinator.tracks request.requestId = true) : ComputedTable k request a m g bs bs
  | added {bs hits : List BlockId} (hhits : (a.newComputedBlocks.getD k.emptyKvCacheBlocks)[g]? = some hits)
      (hnew : a.newComputedBlocks.isSome ∨ a.numExternalComputedTokens > 0)
      (h : m.WithComputed hits (numLocalComputedTokens request a) a.numExternalComputedTokens bs) :
      ComputedTable k request a m g [] bs

section
variable {res : Option (List (List BlockId))} (h : k.allocateSlots request a = .ok (res, k'))
  (ha : k.pool.Accounts (heldBy k.coordinator.managers + R)) (hg : k.coordinator.managers[g]? = some m)
include h ha hg

/-- What `allocate_slots` does to the tables of a growing group: nothing, or the scan for skipped blocks, or
also the allocation. -/
theorem allocateSlots_table (hgr : m.spec.growing = true) :
    ∃ m', k'.coordinator.managers[g]? = some m' ∧ m'.spec = m.spec ∧ (res = none ∧ m' = m ∨
      ∃ m₁ q q', m.removeSkippedBlocks q request.requestId (k.processedTokens request a)
        (some request.numPromptTokens) =
        .ok (m₁, q') ∧ m₁.spec = m.spec ∧ (res = none ∧ m' = m₁ ∨
          res.isSome = true ∧ (∀ x, x ≠ request.requestId → m'.blocksOf x = m₁.blocksOf x) ∧
            ∃ bs, k.ComputedTable request a m g (m₁.blocksOf request.requestId) bs ∧
              Grown bs (m'.blocksOf request.requestId) (cdiv (k.numTokensNeedSlot request a) m.spec.blockSize))) := by
  simp only [allocateSlots] at h
  rw [bind_eq_ok] at h
  obtain ⟨-, -, h⟩ := h
  rw [bind_eq_ok] at h
  obtain ⟨⟨fits, c₁⟩, h₁, h⟩ := h
  obtain ⟨ha₁, -⟩ := fullSequenceFits_conserves h₁ R ha
  have hg₁ := fullSequenceFits_at h₁ ha hg hgr
  dsimp only at h
  split at h
  · -- the admission gate has changed nothing
    cases pure_eq_ok.1 h
    exact ⟨m, hg₁, rfl, .inl ⟨rfl, rfl⟩⟩
  rw [bind_eq_ok] at h
  obtain ⟨c₂, h₂, h⟩ := h
  obtain ⟨ha₂, -⟩ := removeSkippedBlocks_conserves h₂ R ha₁
  obtain ⟨m₂, q, q', hm₂, hrem⟩ := removeSkippedBlocks_at h₂ ha₁ hg₁
  have hs₂ : m₂.spec = m.spec := (Manager.removeSkippedBlocks_works hrem).1.spec
  rw [bind_eq_ok] at h
  obtain ⟨⟨n, c₃⟩, h₃, h⟩ := h
  obtain ⟨ha₃, -⟩ := getNumBlocksToAllocate_conserves h₃ R ha₂
  have hm₃ := getNumBlocksToAllocate_at h₃ ha₂ hm₂ (hs₂ ▸ hgr)
  dsimp only at h
  split at h
  · cases pure_eq_ok.1 h
    exact ⟨m₂, hm₃, hs₂, .inr ⟨m₂, q, q', hrem, hs₂, .inl ⟨rfl, rfl⟩⟩⟩
  simp only [do_eq_ok] at h
  obtain ⟨c₄, h₄, ⟨new, c₅⟩, h₅, c₆, h₆, he⟩ := h
  cases he
  have htracks : c₃.tracks request.requestId = k.coordinator.tracks request.requestId := by
    rw [getNumBlocksToAllocate_tracks h₃, removeSkippedBlocks_tracks h₂, fullSequenceFits_tracks h₁]
  have hcomputed : ∃ m₄, c₄.managers[g]? = some m₄ ∧ m₄.spec = m.spec ∧
      (∀ x, x ≠ request.requestId → m₄.blocksOf x = m₂.blocksOf x) ∧
      k.ComputedTable request a m g (m₂.blocksOf request.requestId) (m₄.blocksOf request.requestId) := by
    unfold allocateComputed at h₄
    split at h₄
    · next hadd =>
      obtain ⟨m₄, hm₄, hs₄, hx₄, hr₄⟩ := allocateNewComputedBlocks_at h₄ ha₃ hm₃ (hs₂ ▸ hgr)
      refine ⟨m₄, hm₄, hs₄.trans hs₂, hx₄, ?_⟩
      rcases hr₄ with ⟨htr, hr₄⟩ | ⟨hits, hhits, hnil, hr₄⟩
      · rw [hr₄]
        exact .kept (.inr (htracks ▸ htr))
      · rw [hnil]
        refine .added hhits hadd ?_
        unfold Manager.WithComputed Manager.paddedHits Manager.getNumSkippedTokens at hr₄ ⊢
        rwa [hs₂] at hr₄
    · next hadd =>
      cases h₄
      exact ⟨m₂, hm₃, hs₂, fun _ _ => rfl, .kept (.inl hadd)⟩
  obtain ⟨m₄, hm₄, hs₄, hx₄, hr₄⟩ := hcomputed
  have ha₄ := (allocateComputed_conserves h₄ R ha₃).1
  obtain ⟨m₅, q₅, q₅', new₅, S₅, hm₅, ha₅, hnew⟩ := allocateNewBlocks_at h₅ ha₄ hm₄ (hs₄ ▸ hgr)
  obtain ⟨first, rest, hrest, hfirst, hlen, hs₅, hb₅⟩ := Manager.allocateNewBlocks_blocksOf (hs₄ ▸ hgr) ha₅ hnew
  have ha₅' := (allocateNewBlocks_conserves h₅ R ha₄).1
  have hr₅ := hb₅ request.requestId
  rw [if_pos rfl] at hr₅
  have hgrown : Grown (m₄.blocksOf request.requestId) (m₅.blocksOf request.requestId)
      (cdiv (k.numTokensNeedSlot request a) m.spec.blockSize) := by
    refine ⟨⟨first, rest, hr₅, hrest, hfirst⟩, ?_⟩
    rw [hr₅, hlen, hs₄]
  have hother : ∀ x, x ≠ request.requestId → m₅.blocksOf x = m₂.blocksOf x := by
    intro x hx
    rw [hb₅, if_neg hx, hx₄ x hx]
  -- caching changes no table
  obtain ⟨m₆, hm₆, hs₆, hb₆⟩ : ∃ m₆, c₆.managers[g]? = some m₆ ∧ m₆.spec = m₅.spec ∧
      ∀ x, m₆.blocksOf x = m₅.blocksOf x := by
    unfold cacheAllocated at h₆
    split at h₆
    · cases h₆
      exact ⟨m₅, hm₅, rfl, fun _ => rfl⟩
    · exact cacheBlocks_at h₆ ha₅' hm₅
  refine ⟨m₆, hm₆, hs₆.trans (hs₅.trans hs₄), .inr ⟨m₂, q, q', hrem, hs₂, .inr ⟨rfl, fun x hx => ?_, _, hr₄, ?_⟩⟩⟩
  · rw [hb₆, hother x hx]
  · rw [hb₆]; exact hgrown

theorem allocateSlots_windows (hw : m.spec.windowed = true) (hwin : m.Windows floor prompt)
    (hkeep : KeepsWindow m g floor prompt k request a) :
    ∃ m', k'.coordinator.managers[g]? = some m' ∧ m'.spec = m.spec ∧
      m'.Windows (Function.update floor request.requestId (k.floorAfter request a))
        (Function.update prompt request.requestId request.numPromptTokens) := by
  obtain ⟨m', hm', hs', hcase⟩ := allocateSlots_table h ha hg (KVCacheSpec.growing_of_windowed hw)
  refine ⟨m', hm', hs', ?_⟩
  rcases hcase with ⟨-, rfl⟩ | ⟨m₁, q, q', hrem, hs₁, hcase⟩
  · exact hwin.advance hkeep.notBehind processedTokens_le_floorAfter
  obtain ⟨hwin₁, -, -⟩ := hwin.removeSkippedBlocks hw (.inl rfl) hkeep.notBehind hrem
  have hle : k.processedTokens request a ≤ k.floorAfter request a := processedTokens_le_floorAfter
  have hwin₁' := hwin₁.raise_update hle
  rcases hcase with ⟨-, rfl⟩ | ⟨-, hx, bs, hbs, hgrown⟩
  · exact hwin₁'
  have htable : ∃ z, WindowTable m.spec request.numPromptTokens (k.floorAfter request a) bs z := by
    generalize hold : m₁.blocksOf request.requestId = old at hbs
    cases hbs with
    | kept =>
      obtain ⟨z, hz⟩ := hwin₁' request.requestId
      rw [hs₁, Function.update_self, Function.update_self, hold] at hz
      exact ⟨z, hz⟩
    | added hhits hnew hbs =>
      obtain ⟨z, hz⟩ := hbs.windowTable hw (hkeep.head hhits)
      refine ⟨z, hz.mono ?_⟩
      rw [floorAfter, if_pos hnew]
      exact Nat.le_max_right ..
  obtain ⟨z, hz⟩ := htable
  have hb : ∀ x, m'.blocksOf x = if x = request.requestId then m'.blocksOf request.requestId else m₁.blocksOf x := by
    intro x
    split
    · next hxr => rw [hxr]
    · next hxr => exact hx x hxr
  have := hwin₁'.table (hs'.trans hs₁.symm) hb ⟨z, hs₁ ▸ hz.grown hgrown⟩
  rwa [Function.update_idem, Function.update_idem] at this

end

end KVCacheManager

end VllmCore
