import VllmCore.Core.Accounting
import VllmCore.Core.Manager

/-! # The references a manager holds

`m.held` counts the blocks in the tables of a manager and in its pending copies. An operation
`Conserves` when the pool accounts for what the manager holds after it, next to anything held by
others, provided it did so before. Blocks on their way between pool, table and pair are written as a
separate summand. Every method that frees no request `Works`: it also keeps the spec. -/

namespace VllmCore
open Except List Dict
variable {η : Type}

def endpoints (copies : List (BlockId × BlockId)) : List BlockId := copies.flatMap fun c => [c.1, c.2]

theorem endpoints_append (u v : List (BlockId × BlockId)) : endpoints (u ++ v) = endpoints u ++ endpoints v :=
  flatMap_append ..

namespace Manager
variable {m m' : Manager η} {p p' : BlockPool η} {R : BlockId → Nat} {r : RequestId} {bs : List BlockId} {s : MambaSpec}
  {hits : List BlockId} {nl : Nat}

theorem blocksOf_set (m : Manager η) (r x : RequestId) (bs : List BlockId) :
    (m.setBlocks r bs).blocksOf x = if x = r then bs else m.blocksOf x := by
  simp only [blocksOf, setBlocks, Dict.getD, get?_set]
  split <;> rfl

@[simp] theorem blocksOf_openTable (m : Manager η) (r x : RequestId) : (m.openTable r).blocksOf x = m.blocksOf x := by
  rw [openTable, blocksOf_set]
  split
  · next h => rw [h]
  · rfl

variable (d : Dict RequestId (List BlockId)) {p'' : BlockPool η} {ne : Nat}

def tableRefs : BlockId → Nat := fun b => d.total fun _ bs => refsTo bs b

def held (m : Manager η) : BlockId → Nat := tableRefs m.reqToBlocks + refsTo (endpoints m.pendingCowCopies)

theorem tableRefs_set (r : RequestId) (bs : List BlockId) :
    tableRefs (d.set r bs) + refsTo (d.getD r []) = tableRefs d + refsTo bs := by
  funext b
  have := d.total_set (fun _ bs => refsTo bs b) r bs
  simp only [Pi.add_apply, tableRefs, Dict.getD]
  cases h : d.get? r with
  | none => rw [h] at this; simpa using this
  | some old => rw [h] at this; simpa using this

theorem tableRefs_erase (r : RequestId) : tableRefs (d.erase r) + refsTo (d.getD r []) = tableRefs d := by
  funext b
  have := d.total_erase (fun _ bs => refsTo bs b) r
  simp only [Pi.add_apply, tableRefs, Dict.getD]
  cases h : d.get? r with
  | none => rw [h] at this; simpa using this
  | some old => rw [h] at this; simpa using this

theorem held_congr (h : m'.reqToBlocks = m.reqToBlocks) (h' : m'.pendingCowCopies = m.pendingCowCopies) :
    m'.held = m.held := by
  rw [held, held, h, h']

theorem held_setBlocks (m : Manager η) (r : RequestId) (bs : List BlockId) :
    (m.setBlocks r bs).held + refsTo (m.blocksOf r) = m.held + refsTo bs := by
  have := tableRefs_set m.reqToBlocks r bs
  show tableRefs (m.reqToBlocks.set r bs) + refsTo (endpoints m.pendingCowCopies) + refsTo (m.reqToBlocks.getD r []) =
    tableRefs m.reqToBlocks + refsTo (endpoints m.pendingCowCopies) + refsTo bs
  rw [add_right_comm, this, add_right_comm]

theorem held_setBlocks_eq (h : refsTo bs = refsTo (m.blocksOf r)) : (m.setBlocks r bs).held = m.held := by
  have := m.held_setBlocks r bs
  rw [h] at this
  exact add_right_cancel this

@[simp] theorem held_openTable (m : Manager η) (r : RequestId) : (m.openTable r).held = m.held :=
  held_setBlocks_eq rfl

@[simp] theorem blocksOf_setBlocks (m : Manager η) (r : RequestId) (bs : List BlockId) :
    (m.setBlocks r bs).blocksOf r = bs := by
  rw [blocksOf_set, if_pos rfl]

theorem held_append (m : Manager η) (r : RequestId) (bs : List BlockId) :
    (m.setBlocks r (m.blocksOf r ++ bs)).held = m.held + refsTo bs := by
  have := m.held_setBlocks r (m.blocksOf r ++ bs)
  rw [refsTo_append, ← add_assoc, add_right_comm] at this
  exact add_right_cancel this

theorem held_pending (m : Manager η) (source cow : BlockId) :
    held { m with pendingCowCopies := m.pendingCowCopies ++ [(source, cow)] } =
      m.held + (refsTo [source] + refsTo [cow]) := by
  have : endpoints (m.pendingCowCopies ++ [(source, cow)]) = endpoints m.pendingCowCopies ++ [source, cow] := by
    simp [endpoints]
  rw [held, held, this, refsTo_append, refsTo_cons source [cow], add_assoc]

theorem held_pos {b : BlockId} (hb : b ≠ nullBlock) (hmem : b ∈ m.blocksOf r) : 0 < m.held b := by
  have hrefs := congrFun (tableRefs_erase m.reqToBlocks r) b
  have hpos := (refsTo_pos hb).2 hmem
  simp only [Pi.add_apply] at hrefs
  simp only [held, Pi.add_apply]
  unfold blocksOf at hpos
  omega

def Conserves (m : Manager η) (p : BlockPool η) (m' : Manager η) (p' : BlockPool η) : Prop :=
  ∀ R, p.Accounts (m.held + R) → p'.Accounts (m'.held + R) ∧ p'.numGpuBlocks = p.numGpuBlocks

namespace Conserves

theorem trans {m'' : Manager η} (h : Conserves m p m' p') (h' : Conserves m' p' m'' p'') : Conserves m p m'' p'' := by
  intro R ha
  obtain ⟨ha', hgpu⟩ := h R ha
  obtain ⟨ha'', hgpu'⟩ := h' R ha'
  exact ⟨ha'', hgpu'.trans hgpu⟩

theorem of_sameRefs (h : m'.held = m.held) (hp : p.SameRefs p') : Conserves m p m' p' := by
  intro R ha
  rw [h]
  exact ⟨ha.sameRefs hp, hp.numGpuBlocks⟩

theorem of_held (h : m'.held = m.held) (p : BlockPool η) : Conserves m p m' p := of_sameRefs h (.refl p)

theorem refl (m : Manager η) (p : BlockPool η) : Conserves m p m p := of_held rfl p

theorem of_free (h : m'.held + refsTo bs = m.held) (hp : p.freeBlocks bs = .ok p') : Conserves m p m' p' := by
  intro R ha
  have hR : m.held + R = refsTo bs + (m'.held + R) := by rw [← h]; ac_rfl
  rw [hR] at ha
  obtain ⟨q, hq, hacc, hsame⟩ := ha.freeBlocks
  cases hp.symm.trans hq
  exact ⟨hacc, hsame.numGpuBlocks⟩

theorem of_new [DecidableEq η] {n : Nat} (h : m'.held = m.held + refsTo bs) (hp : p.getNewBlocks n = .ok (bs, p')) :
    Conserves m p m' p' := by
  intro R ha
  obtain ⟨hacc, -, -, -, hgpu, -⟩ := ha.of_getNewBlocks hp
  have hR : m'.held + R = refsTo bs + (m.held + R) := by rw [h]; ac_rfl
  exact ⟨hR ▸ hacc, hgpu⟩

end Conserves

/-- The tables and the pending copies stay, and a partial hit is noted only for a request that has blocks. -/
structure SameTables (m m' : Manager η) : Prop where
  spec : m'.spec = m.spec
  tables : ∀ x, m'.blocksOf x = m.blocksOf x
  held : m'.held = m.held
  pending : m'.pendingCowCopies = m.pendingCowCopies
  allocated : m'.allocatedBlockReqs = m.allocatedBlockReqs
  partialHit : ∀ x, m'.partialHitReqs.contains x → m.partialHitReqs.contains x ∨ m.blocksOf x ≠ []

theorem SameTables.refl (m : Manager η) : SameTables m m := ⟨rfl, fun _ => rfl, rfl, rfl, rfl, fun _ h => .inl h⟩

theorem SameTables.openTable (m : Manager η) (r : RequestId) : SameTables m (m.openTable r) :=
  ⟨rfl, blocksOf_openTable m r, held_openTable m r, rfl, rfl, fun _ h => .inl h⟩

theorem SameTables.trans {m'' : Manager η} (h : SameTables m m') (h' : SameTables m' m'') : SameTables m m'' := by
  refine ⟨h'.spec.trans h.spec, fun x => (h'.tables x).trans (h.tables x), h'.held.trans h.held,
    h'.pending.trans h.pending,
    h'.allocated.trans h.allocated, fun x hx => ?_⟩
  rcases h'.partialHit x hx with hp | hne
  · exact h.partialHit x hp
  · exact .inr (h.tables x ▸ hne)

structure Works (m : Manager η) (p : BlockPool η) (m' : Manager η) (p' : BlockPool η) : Prop where
  conserves : Conserves m p m' p'
  spec : m'.spec = m.spec

namespace Works

theorem refl (m : Manager η) (p : BlockPool η) : Works m p m p := ⟨.refl m p, rfl⟩

theorem trans {m'' : Manager η} (h : Works m p m' p') (h' : Works m' p' m'' p'') : Works m p m'' p'' :=
  ⟨h.conserves.trans h'.conserves, h'.spec.trans h.spec⟩

theorem of_same (h : SameTables m m') (hp : p.SameRefs p') : Works m p m' p' := ⟨.of_sameRefs h.held hp, h.spec⟩

end Works

/-! ### Allocation -/

section Allocation
variable [DecidableEq η] {i n : Nat} {cow source : BlockId}

theorem appendNewBlocks_works (h : m.appendNewBlocks p r n = .ok (bs, m', p')) : Works m p m' p' := by
  simp only [appendNewBlocks, do_eq_ok] at h
  obtain ⟨⟨new, q⟩, hq, h⟩ := h
  cases h
  refine ⟨.of_new ?_ hq, ?_⟩
  · split
    · exact held_append m r new
    · exact held_append m r new
  · split <;> rfl

omit [DecidableEq η] in
theorem held_notePartialHit (m : Manager η) (r : RequestId) (hits : List BlockId) (n : Nat) :
    (m.notePartialHit r hits n).held = m.held := by
  unfold notePartialHit
  split
  · exact held_congr rfl rfl
  · rfl

omit [DecidableEq η] in
theorem touchHits_accounts (ha : p.Accounts R) (h : m.touchHits p hits = .ok p') :
    p'.Accounts (refsTo hits + R) ∧ p'.numGpuBlocks = p.numGpuBlocks := by
  unfold touchHits at h
  split at h
  · obtain ⟨hacc, hsame⟩ := ha.of_touch h
    exact ⟨hacc, hsame.numGpuBlocks⟩
  split at h
  · next he =>
    cases h
    subst he
    rw [refsTo_nil, zero_add]
    exact ⟨ha, rfl⟩
  · cases h

omit [DecidableEq η] in
theorem addLocalComputedBlocks_works (h : m.addLocalComputedBlocks p r hits nl ne = .ok (m', p')) :
    Works m p m' p' := by
  have base : m.baseAddLocalComputedBlocks p r hits nl ne = .ok (m', p') → Works m p m' p' := by
    intro h
    simp only [baseAddLocalComputedBlocks, do_eq_ok] at h
    obtain ⟨-, hempty, q, hq, h⟩ := h
    obtain ⟨hm, rfl⟩ := Prod.mk.inj h
    refine ⟨fun R ha => ?_, ?_⟩
    · obtain ⟨hacc, hgpu⟩ := touchHits_accounts ha hq
      -- the table was empty and now holds the padding and the touched hits
      have hheld := m.held_setBlocks r (List.replicate (m.getNumSkippedTokens (nl + ne) / m.blockSize) nullBlock ++
        hits.drop (m.getNumSkippedTokens (nl + ne) / m.blockSize))
      rw [hempty, refsTo_nil, add_zero, refsTo_append, refsTo_replicate_null, zero_add] at hheld
      have hm' := (congrArg held hm).symm.trans (held_notePartialHit ..) |>.trans hheld
      rw [hm', add_right_comm, add_comm (m.held + R)]
      exact ⟨hacc, hgpu⟩
    · rw [← hm]
      unfold notePartialHit
      split <;> rfl
  unfold addLocalComputedBlocks at h
  split at h
  · cases h; exact .refl m p
  · split at h
    · cases h; exact .refl m p
    · cases h
  · exact base h

theorem claimRingBlock_works (h : m.claimRingBlock p r = .ok (bs, m', p')) : Works m p m' p' := by
  unfold claimRingBlock at h
  split at h
  · exact appendNewBlocks_works h
  · cases h; exact .refl m p

theorem allocateExternalComputedBlocks_works (h : m.allocateExternalComputedBlocks p r nl ne = .ok (m', p')) :
    Works m p m' p' := by
  unfold allocateExternalComputedBlocks at h
  split at h
  · simp only [do_eq_ok] at h
    obtain ⟨⟨bs, m1, p1⟩, h1, h⟩ := h
    cases h
    exact claimRingBlock_works h1
  · cases h; exact .refl m p
  · simp only [baseAllocateExternalComputedBlocks] at h
    generalize (if m.getNumSkippedTokens (nl + ne) > 0 then _ else _) = external at h
    split at h
    · cases h; exact .refl m p
    · simp only [do_eq_ok] at h
      obtain ⟨⟨bs, m1, p1⟩, h1, h⟩ := h
      cases h
      exact appendNewBlocks_works h1

omit [DecidableEq η] in
/-- The copy enters with one reference from the pool. The table and the pair then hold it, and the pair
takes over the reference of the table to the source. -/
theorem applyCow_accounts (h : m.applyCow p r i source cow = .ok (m', p'))
    (ha : p.Accounts (m.held + refsTo [cow] + R)) :
    p'.Accounts (m'.held + R) ∧ p'.numGpuBlocks = p.numGpuBlocks := by
  simp only [applyCow, do_eq_ok] at h
  obtain ⟨-, hsource, -, -, h⟩ := h
  cases h
  refine ⟨?_, rfl⟩
  have hset := m.held_setBlocks r ((m.blocksOf r).set i cow)
  have hcow := refsTo_set hsource cow
  have hheld : (m.setBlocks r ((m.blocksOf r).set i cow)).held + refsTo [source] = m.held + refsTo [cow] := by
    refine add_right_cancel (b := refsTo (m.blocksOf r)) ?_
    rw [add_right_comm, hset, add_assoc, hcow]
    ac_rfl
  have hpos : cow ≠ nullBlock → 0 < (m.held + refsTo [cow] + R) cow := by
    intro hn
    have := (refsTo_pos hn).2 (mem_singleton.2 rfl)
    simp only [Pi.add_apply]
    omega
  have hfinal : refsTo [cow] + (m.held + refsTo [cow] + R) =
      held { m.setBlocks r ((m.blocksOf r).set i cow) with
        pendingCowCopies := (m.setBlocks r ((m.blocksOf r).set i cow)).pendingCowCopies ++ [(source, cow)] } + R := by
    rw [held_pending, ← add_assoc (held _), hheld]
    ac_rfl
  exact hfinal ▸ ha.addRef hpos

omit [DecidableEq η] in
theorem applyCow_spec (h : m.applyCow p r i source cow = .ok (m', p')) : m'.spec = m.spec := by
  simp only [applyCow, do_eq_ok] at h
  obtain ⟨-, -, -, -, he⟩ := h
  cases he
  rfl

theorem redirectPartialHit_works (h : m.redirectPartialHit p r = .ok (bs, m', p')) : Works m p m' p' := by
  unfold redirectPartialHit at h
  split at h
  · cases h; exact .refl m p
  · rw [bind_eq_ok] at h
    obtain ⟨⟨new, q⟩, hq, h⟩ := h
    dsimp only at h
    split at h
    · cases h
    · next cow rest =>
      simp only [do_eq_ok] at h
      obtain ⟨⟨m1, p1⟩, h1, h⟩ := h
      cases h
      refine ⟨fun R ha => ?_, (applyCow_spec h1 :)⟩
      obtain ⟨hacc, hlen, -, -, hgpu, -⟩ := ha.of_getNewBlocks hq
      obtain rfl : rest = [] := length_eq_zero_iff.1 (Nat.succ.inj hlen)
      have hR : refsTo [cow] + (m.held + R) = m.held + refsTo [cow] + R := by ac_rfl
      obtain ⟨hacc1, hgpu1⟩ := applyCow_accounts h1 (hR ▸ hacc)
      exact ⟨hacc1, hgpu1.trans hgpu⟩

theorem baseAllocateNewBlocks_works (h : m.baseAllocateNewBlocks p r n = .ok (bs, m', p')) : Works m p m' p' := by
  unfold baseAllocateNewBlocks at h
  rw [bind_eq_ok] at h
  obtain ⟨⟨cows, m1, p1⟩, h1, h⟩ := h
  refine (redirectPartialHit_works h1).trans ?_
  dsimp only at h
  split at h
  · cases pure_eq_ok.1 h
    exact .of_same (.openTable m1 r) (.refl _)
  · simp only [do_eq_ok] at h
    obtain ⟨⟨new, m2, p2⟩, h2, h⟩ := h
    cases h
    exact appendNewBlocks_works h2

omit [DecidableEq η] in
theorem refsTo_relocate {p : BlockPool η} {tbl tbl' : List BlockId} (h : relocateSpeculativeBlock p tbl i = .ok tbl') :
    refsTo tbl' = refsTo tbl := by
  unfold relocateSpeculativeBlock at h
  split at h
  · cases h
  · next b hb =>
    simp only [do_eq_ok] at h
    obtain ⟨-, -, rfl⟩ := h
    have hi := (List.getElem?_eq_some_iff.1 hb).1
    have hb' : (tbl ++ [b])[i]? = some b := by rw [getElem?_append_left hi, hb]
    have := refsTo_set hb' nullBlock
    rw [refsTo_null, refsTo_nil, add_zero, refsTo_append] at this
    exact add_right_cancel this

omit [DecidableEq η] in
theorem refsTo_padWithNull (tbl : List BlockId) (n c : Nat) : refsTo (padWithNull tbl n c) = refsTo tbl := by
  unfold padWithNull
  split
  · rw [refsTo_append, refsTo_replicate_null, add_zero]
  · rfl

omit [DecidableEq η] in
theorem refsTo_alignTable (h : m.alignTable p s r n = .ok bs) : refsTo bs = refsTo (m.blocksOf r) := by
  simp only [alignTable] at h
  split at h
  · have := foldlM_inv (P := fun t => refsTo t = refsTo (padWithNull (m.blocksOf r) n _))
      (fun i _ x y hx hy => (refsTo_relocate hy).trans hx) h rfl
    exact this.trans (refsTo_padWithNull ..)
  · cases h; exact refsTo_padWithNull ..

/-- Here the pair takes the reference of the new block, and the source is referenced once more. -/
theorem privatizeTail_accounts (h : m.privatizeTail p r bs i source cow = .ok (m', p'))
    (ha : p.Accounts ((m.setBlocks r bs).held + refsTo [cow] + R)) :
    p'.Accounts ((m'.setBlocks r bs).held + R) ∧ p'.numGpuBlocks = p.numGpuBlocks := by
  simp only [privatizeTail, do_eq_ok] at h
  obtain ⟨-, hsource, q, hq, -, -, h⟩ := h
  obtain ⟨hm, rfl⟩ := Prod.mk.inj h
  have hsame := BlockPool.sameRefs_moveBlockHashes hq
  have hheld : (m'.setBlocks r bs).held = (m.setBlocks r bs).held + (refsTo [source] + refsTo [cow]) := by
    rw [← held_pending, ← hm]
    rfl
  have hpos : source ≠ nullBlock → 0 < ((m.setBlocks r bs).held + refsTo [cow] + R) source := by
    intro hn
    have := held_pos (m := m.setBlocks r bs) (r := r) hn
      (by rw [blocksOf_setBlocks]; exact mem_of_getElem? hsource)
    simp only [Pi.add_apply]
    omega
  have hacc := (ha.sameRefs hsame).addRef hpos
  have hR : refsTo [source] + ((m.setBlocks r bs).held + refsTo [cow] + R) = (m'.setBlocks r bs).held + R := by
    rw [hheld]; ac_rfl
  exact ⟨hR ▸ hacc, hsame.numGpuBlocks⟩

/-- New blocks are on their way: the partial hit takes its copy, the others are handed on. -/
theorem alignPartialHit_works {new cows rest : List BlockId}
    (h : m.alignPartialHit p r bs new = .ok (cows, rest, m', p')) :
    (∀ R, p.Accounts ((m.setBlocks r bs).held + refsTo new + R) →
      p'.Accounts (m'.held + refsTo rest + R) ∧ p'.numGpuBlocks = p.numGpuBlocks) ∧
    m'.spec = m.spec := by
  unfold alignPartialHit at h
  split at h
  · cases h; exact ⟨fun _ ha => ⟨ha, rfl⟩, rfl⟩
  · split at h
    · cases h
    · next i source _ cow tl =>
      have hR : ∀ R, (m.setBlocks r bs).held + refsTo (cow :: tl) + R =
          (m.setBlocks r bs).held + refsTo [cow] + (refsTo tl + R) := by
        intro R
        rw [refsTo_cons]
        ac_rfl
      split at h
      · simp only [do_eq_ok] at h
        obtain ⟨⟨m1, p1⟩, h1, h⟩ := h
        cases h
        refine ⟨fun R ha => ?_, ?_⟩
        · rw [hR] at ha
          rw [add_assoc]
          exact privatizeTail_accounts h1 ha
        · simp only [privatizeTail, do_eq_ok] at h1
          obtain ⟨-, -, q, -, -, -, he⟩ := h1
          cases he
          rfl
      · simp only [do_eq_ok] at h
        obtain ⟨⟨m1, p1⟩, h1, h⟩ := h
        cases h
        have hspec : _ = (m.setBlocks r bs).spec := applyCow_spec h1
        refine ⟨fun R ha => ?_, hspec⟩
        rw [hR] at ha
        rw [add_assoc]
        exact applyCow_accounts h1 ha

theorem alignAllocateNewBlocks_works (h : m.alignAllocateNewBlocks p s r n = .ok (bs, m', p')) : Works m p m' p' := by
  simp only [alignAllocateNewBlocks] at h
  split at h
  · cases h
    exact ⟨.of_held (held_openTable m r) _, rfl⟩
  simp only [do_eq_ok] at h
  obtain ⟨tbl, htbl, -, -, ⟨new, q⟩, hq, ⟨cows, rest, m1, p1⟩, h1, h⟩ := h
  obtain ⟨hm, rfl⟩ : _ ∧ p1 = p' := (Prod.mk.inj (Prod.mk.inj h).2)
  obtain ⟨hacc, hs⟩ := alignPartialHit_works h1
  refine ⟨fun R ha => ?_, hm ▸ hs⟩
  have hset : (m.setBlocks r tbl).held = m.held := held_setBlocks_eq (refsTo_alignTable htbl)
  obtain ⟨hnew, -, -, -, hgpu, -⟩ := ha.of_getNewBlocks hq
  have hR : refsTo new + (m.held + R) = (m.setBlocks r tbl).held + refsTo new + R := by rw [hset]; ac_rfl
  obtain ⟨hacc1, hgpu1⟩ := hacc R (hR ▸ hnew)
  have hheld : m'.held = m1.held + refsTo rest := by
    rw [← held_append m1 r rest, ← hm]
    rfl
  exact ⟨hheld ▸ hacc1, hgpu1.trans hgpu⟩

theorem allocateNewBlocks_works {n' : Nat} (h : m.allocateNewBlocks p r n n' = .ok (bs, m', p')) : Works m p m' p' := by
  unfold allocateNewBlocks at h
  split at h
  · exact claimRingBlock_works h
  · split at h
    · exact alignAllocateNewBlocks_works h
    · exact baseAllocateNewBlocks_works h
  all_goals exact baseAllocateNewBlocks_works h

end Allocation

theorem getNumBlocksToAllocate_same [DecidableEq η] {nt tot main : Nat} {cap : Bool} {n : Int}
    (h : m.getNumBlocksToAllocate p r nt hits tot nl main cap = .ok (n, m')) :
    SameTables m m' ∧ m'.numCachedBlock = m.numCachedBlock ∧ ((∀ s, m.spec.kind ≠ .mamba s) → m' = m) := by
  unfold getNumBlocksToAllocate at h
  split at h
  · cases h; exact ⟨.refl m, rfl, fun _ => rfl⟩
  · next s hk =>
    split at h
    · cases h; exact ⟨.refl m, rfl, fun _ => rfl⟩
    split at h
    · cases h
      exact ⟨⟨rfl, blocksOf_openTable m r, (held_congr rfl rfl).trans (held_openTable m r), rfl,
        rfl, fun _ h => .inl h⟩,
        rfl, fun hno => absurd hk (hno s)⟩
    · simp only [do_eq_ok] at h
      obtain ⟨_, -, h⟩ := h
      cases h; exact ⟨.refl m, rfl, fun _ => rfl⟩
  all_goals
    simp only [do_eq_ok] at h
    obtain ⟨_, -, h⟩ := h
    cases h; exact ⟨.refl m, rfl, fun _ => rfl⟩

/-! ### Caching -/

section Caching
variable [DecidableEq η] {request : Request η} {n : Nat} {ret : Option Nat} {bd : List Nat}

theorem baseCacheBlocks_same (h : m.baseCacheBlocks p request n ret bd = .ok (m', p')) :
    SameTables m m' ∧ p.SameRefs p' := by
  simp only [baseCacheBlocks] at h
  split at h
  · cases h; exact ⟨.refl m, .refl p⟩
  · simp only [do_eq_ok] at h
    obtain ⟨q, hq, h⟩ := h
    cases h
    exact ⟨⟨rfl, blocksOf_openTable m _, held_openTable m _, rfl, rfl, fun _ h => .inl h⟩,
      BlockPool.sameRefs_cacheFullBlocks hq⟩

theorem fullCachePartialTailBlock_same (h : m.fullCachePartialTailBlock p request n = .ok (m', p')) :
    SameTables m m' ∧ p.SameRefs p' := by
  simp only [fullCachePartialTailBlock] at h
  split at h
  · cases h; exact ⟨.refl m, .refl p⟩
  split at h
  · cases h; exact ⟨.openTable m _, .refl p⟩
  · simp only [do_eq_ok] at h
    obtain ⟨⟨key, q⟩, hq, h⟩ := h
    cases h
    exact ⟨.openTable m _, BlockPool.sameRefs_cachePartialBlock hq⟩

theorem mambaCachePartialTailBlock_same {key : Option (BlockHashWithGroupId η)}
    (h : m.mambaCachePartialTailBlock p request n = .ok (key, m', p')) : SameTables m m' ∧ p.SameRefs p' := by
  simp only [mambaCachePartialTailBlock] at h
  split at h
  · split at h
    · cases h
    split at h
    · cases h; exact ⟨.refl m, .refl p⟩
    · simp only [do_eq_ok] at h
      obtain ⟨⟨key', q⟩, hq, h⟩ := h
      cases h
      exact ⟨.refl m, BlockPool.sameRefs_cachePartialBlock hq⟩
  · split at h
    · split at h
      · cases h; exact ⟨.openTable m _, .refl p⟩
      · next b hb =>
        split at h
        · cases h; exact ⟨.refl m, .refl p⟩
        · simp only [do_eq_ok] at h
          obtain ⟨⟨key', q⟩, hq, h⟩ := h
          cases h
          refine ⟨⟨rfl, fun _ => rfl, rfl, rfl, rfl, fun x hx => ?_⟩, BlockPool.sameRefs_cachePartialBlock hq⟩
          simp only [Dict.contains, get?_set] at hx
          split at hx
          · next heq =>
            refine .inr fun hnil => ?_
            rw [← heq, hnil] at hb
            cases hb
          · exact .inl hx
    · cases h; exact ⟨.refl m, .refl p⟩

theorem mambaTail_same (h : m.mambaTail p s request n = .ok (m', p')) : SameTables m m' ∧ p.SameRefs p' := by
  unfold mambaTail at h
  split at h
  · simp only [do_eq_ok] at h
    obtain ⟨⟨key, m1, p1⟩, h1, h⟩ := h
    cases h
    obtain ⟨hsame, hrefs⟩ := mambaCachePartialTailBlock_same h1
    exact ⟨hsame.trans ⟨rfl, fun _ => rfl, rfl, rfl, rfl, fun _ h => .inl h⟩, hrefs⟩
  · cases h; exact ⟨.refl m, .refl p⟩

theorem mambaCacheBlocks_same (h : m.mambaCacheBlocks p s request n ret bd = .ok (m', p')) :
    SameTables m m' ∧ p.SameRefs p' := by
  simp only [mambaCacheBlocks, bind_eq_ok] at h
  obtain ⟨⟨m1, p1⟩, h1, ⟨m2, p2⟩, h2, -, -, h⟩ := h
  obtain ⟨hsame1, hrefs1⟩ := baseCacheBlocks_same h1
  obtain ⟨hsame2, hrefs2⟩ := mambaTail_same h2
  have key : SameTables m2 m' ∧ p' = p2 := by
    split at h
    · simp only [do_eq_ok] at h
      obtain ⟨-, -, h⟩ := h
      cases h; exact ⟨⟨rfl, fun _ => rfl, rfl, rfl, rfl, fun _ h => .inl h⟩, rfl⟩
    · cases pure_eq_ok.1 h; exact ⟨⟨rfl, fun _ => rfl, rfl, rfl, rfl, fun _ h => .inl h⟩, rfl⟩
  obtain ⟨hsame, rfl⟩ := key
  exact ⟨(hsame1.trans hsame2).trans hsame, hrefs1.trans hrefs2⟩

theorem cacheBlocks_same (h : m.cacheBlocks p request n ret bd = .ok (m', p')) : SameTables m m' ∧ p.SameRefs p' := by
  have full : m.fullCacheBlocks p request n ret bd = .ok (m', p') → SameTables m m' ∧ p.SameRefs p' := by
    intro h
    unfold fullCacheBlocks at h
    rw [bind_eq_ok] at h
    obtain ⟨⟨m1, p1⟩, h1, h⟩ := h
    obtain ⟨hsame1, hrefs1⟩ := baseCacheBlocks_same h1
    dsimp only at h
    split at h
    · cases pure_eq_ok.1 h
      exact ⟨hsame1, hrefs1⟩
    · obtain ⟨hsame, hrefs⟩ := fullCachePartialTailBlock_same h
      exact ⟨hsame1.trans hsame, hrefs1.trans hrefs⟩
  unfold cacheBlocks at h
  split at h
  · exact full h
  · exact full h
  · exact baseCacheBlocks_same h
  · exact baseCacheBlocks_same h
  · cases h; exact ⟨.refl m, .refl p⟩
  · exact mambaCacheBlocks_same h
  · cases h

theorem cacheBlocks_works (h : m.cacheBlocks p request n ret bd = .ok (m', p')) : Works m p m' p' :=
  .of_same (cacheBlocks_same h).1 (cacheBlocks_same h).2

end Caching

/-! ### Freeing -/

theorem refsTo_removeLoop (first i : Nat) (bs : List BlockId) :
    refsTo (removeLoop first i bs).2 + refsTo (removeLoop first i bs).1 = refsTo bs := by
  induction i generalizing bs with
  | zero => simp [removeLoop]
  | succ i ih =>
    simp only [removeLoop]
    split
    · next b _ hb =>
      split
      · simp
      · have hset := refsTo_set hb nullBlock
        rw [refsTo_null, refsTo_nil, add_zero] at hset
        dsimp only
        rw [refsTo_cons, ← hset, ← ih (bs.set i nullBlock)]
        ac_rfl
    · simp

theorem removeBlocksInRange_works {a b : Nat} (h : m.removeBlocksInRange p r a b = .ok (m', p')) :
    Works m p m' p' ∧ m'.numCachedBlock = m.numCachedBlock := by
  unfold removeBlocksInRange at h
  split at h
  · cases h; exact ⟨.refl m p, rfl⟩
  · next tbl htbl =>
    simp only [do_eq_ok] at h
    obtain ⟨q, hq, h⟩ := h
    cases h
    refine ⟨⟨.of_free ?_ hq, rfl⟩, rfl⟩
    have hset := m.held_setBlocks r (removeLoop a (min b tbl.length) tbl).2
    have hrefs := refsTo_removeLoop a (min b tbl.length) tbl
    have htbl' : m.blocksOf r = tbl := by simp [blocksOf, Dict.getD, htbl]
    rw [htbl'] at hset
    refine add_right_cancel (b := refsTo (removeLoop a (min b tbl.length) tbl).2) ?_
    rw [add_assoc, add_comm (refsTo _) (refsTo _), hrefs, hset]

theorem refsTo_filter_not_null (bs : List BlockId) : refsTo (bs.filter fun b => !isNull b) = refsTo bs := by
  induction bs with
  | nil => rfl
  | cons b bs ih =>
    by_cases hb : b = nullBlock
    · subst hb
      rw [refsTo_null, ← ih]
      rfl
    · rw [filter_cons_of_pos (by simp [isNull, hb]), refsTo_cons, ih, ← refsTo_cons]

theorem alignRemoveSkippedBlocks_works {n : Nat} (h : m.alignRemoveSkippedBlocks p r n = .ok (m', p')) :
    Works m p m' p' ∧ m'.numCachedBlock = m.numCachedBlock := by
  simp only [alignRemoveSkippedBlocks] at h
  generalize hstop : min ((n - 1) / m.blockSize) (m.blocksOf r).length = stop at h
  generalize m.nextStateToFree.getD r 0 = start at h
  split at h
  · cases h; exact ⟨⟨.of_held (held_openTable m r) _, rfl⟩, rfl⟩
  · next hlt =>
    simp only [do_eq_ok] at h
    obtain ⟨q, hq, h⟩ := h
    obtain ⟨hm, rfl⟩ := Prod.mk.inj h
    refine ⟨⟨.of_free ?_ hq, hm ▸ rfl⟩, hm ▸ rfl⟩
    have hset := m.held_setBlocks r ((m.blocksOf r).take start ++ List.replicate (stop - start) nullBlock ++
      (m.blocksOf r).drop stop)
    -- the table is the part before, the freed part and the part after
    have hsplit : m.blocksOf r = (m.blocksOf r).take start ++ ((m.blocksOf r).take stop).drop start ++
        (m.blocksOf r).drop stop := by
      conv_lhs => rw [← take_append_drop stop (m.blocksOf r),
        ← take_append_drop start ((m.blocksOf r).take stop), take_take, Nat.min_eq_left (by omega)]
    have hrefs := congrArg refsTo hsplit
    simp only [refsTo_append, refsTo_replicate_null, add_zero] at hrefs hset
    have hm' : m'.held = (m.setBlocks r ((m.blocksOf r).take start ++ List.replicate (stop - start) nullBlock ++
        (m.blocksOf r).drop stop)).held := hm ▸ held_congr rfl rfl
    rw [refsTo_filter_not_null, hm']
    refine add_right_cancel (b := refsTo ((m.blocksOf r).take start) + refsTo ((m.blocksOf r).drop stop)) ?_
    rw [← hset, hrefs]
    ac_rfl

theorem removeSkippedBlocks_works {n : Nat} {np : Option Nat} (h : m.removeSkippedBlocks p r n np = .ok (m', p')) :
    Works m p m' p' ∧ m'.numCachedBlock = m.numCachedBlock := by
  have base : m.baseRemoveSkippedBlocks p r n = .ok (m', p') → Works m p m' p' ∧
      m'.numCachedBlock = m.numCachedBlock := by
    intro h
    unfold baseRemoveSkippedBlocks at h
    dsimp only at h
    split at h
    · cases h; exact ⟨.refl m p, rfl⟩
    · obtain ⟨hw, hn⟩ := removeBlocksInRange_works h
      exact ⟨(Works.of_same (.openTable m r) (.refl p)).trans hw, hn⟩
  unfold removeSkippedBlocks at h
  split at h
  · cases h; exact ⟨.refl m p, rfl⟩
  · exact removeBlocksInRange_works h
  · split at h
    · exact alignRemoveSkippedBlocks_works h
    · exact base h
  · exact base h

theorem popBlocksForFree_held (m : Manager η) (r : RequestId) :
    (m.popBlocksForFree r).2.held + refsTo (m.popBlocksForFree r).1 = m.held := by
  have herase := tableRefs_erase m.reqToBlocks r
  have hheld : (m.popBlocksForFree r).2.held = tableRefs (m.reqToBlocks.erase r) + refsTo
      (endpoints m.pendingCowCopies) := by
    simp only [popBlocksForFree, held]
    split <;> rfl
  rw [hheld, add_right_comm]
  exact congrArg (· + refsTo (endpoints m.pendingCowCopies)) herase

theorem free_conserves (h : m.free p r = .ok (m', p')) : Conserves m p m' p' := by
  simp only [free, do_eq_ok] at h
  obtain ⟨q, hq, h⟩ := h
  cases h
  refine .of_free ?_ hq
  rw [refsTo_reverse]
  exact popBlocksForFree_held m r

theorem popBlocksForFree_blocksOf (m : Manager η) (r : RequestId) : (m.popBlocksForFree r).2.spec = m.spec ∧
      ∀ x, (m.popBlocksForFree r).2.blocksOf x = if x = r then [] else m.blocksOf x := by
  refine ⟨?_, fun x => ?_⟩
  · unfold popBlocksForFree
    dsimp only
    split <;> rfl
  · simp only [popBlocksForFree, blocksOf, Dict.getD, get?_erase]
    split <;> rfl

theorem takePendingCowCopies_held (m : Manager η) :
    m.takePendingCowCopies.2.held + refsTo (endpoints m.takePendingCowCopies.1) = m.held := by
  simp [takePendingCowCopies, held, endpoints]

/-! ### Records that hold no block -/

theorem newStepStarts_same (m : Manager η) : SameTables m m.newStepStarts := by
  unfold newStepStarts
  split
  · exact ⟨rfl, fun _ => rfl, rfl, rfl, rfl, fun _ h => .inl h⟩
  · exact .refl m

theorem takeNewBlockIds_same (m : Manager η) : SameTables m m.takeNewBlockIds.2 :=
  ⟨rfl, fun _ => rfl, rfl, rfl, rfl, fun _ h => .inl h⟩

theorem takePendingBoundaryStateOffloads_same (m : Manager η) : SameTables m m.takePendingBoundaryStateOffloads.2 :=
  ⟨rfl, fun _ => rfl, rfl, rfl, rfl, fun _ h => .inl h⟩

theorem finalizePartialTailOffload_same (m : Manager η) (r : RequestId) (nc nf : Nat) :
    SameTables m (m.finalizePartialTailOffload r nc nf).2 := by
  unfold finalizePartialTailOffload
  split
  · exact ⟨rfl, fun _ => rfl, rfl, rfl, rfl, fun _ h => .inl h⟩
  · exact .refl m

end Manager

end VllmCore
