import VllmCore.KvOffload.Policy

/-! # The ARC policy

`ARCCachePolicy`: chunks seen once (`t1`) and more often (`t2`), and the keys evicted from each (`b1`,
`b2`), which steer the target size of `t1`. The target is a float in the source; here it is any type
with the operations the policy uses. `Sound` says that the four maps are disjoint and the ghost lists
bounded. -/

namespace VllmCore.KvOffload
open List Dict

/-- The arithmetic of `target_t1_size`; `trunc` is `int()`. -/
class TargetSize (F : Type) extends Zero F, One F, Add F, Sub F, Div F, Min F, Max F, NatCast F where
  trunc : F → Int

instance : TargetSize Rat where
  trunc q := q.num.tdiv q.den

variable {κ F : Type} [DecidableEq κ]

structure ARCCachePolicy (κ F : Type) where
  cacheCapacity : Nat
  targetT1Size : F
  t1 : Dict κ ChunkStatus
  t2 : Dict κ ChunkStatus
  b1 : Dict κ Unit
  b2 : Dict κ Unit

namespace ARCCachePolicy
variable {p q : ARCCachePolicy κ F} {rest : List (κ × ChunkStatus)} {c : ChunkStatus} {k : κ} {β : Type}

def init [TargetSize F] (cacheCapacity : Nat) : ARCCachePolicy κ F := ⟨cacheCapacity, 0, .empty, .empty, .empty, .empty⟩

def get (p : ARCCachePolicy κ F) (key : κ) : Option ChunkStatus := (p.t1.get? key).or (p.t2.get? key)

def write (p : ARCCachePolicy κ F) (key : κ) (chunk : ChunkStatus) : ARCCachePolicy κ F :=
  if p.t1.contains key then { p with t1 := p.t1.set key chunk }
  else if p.t2.contains key then { p with t2 := p.t2.set key chunk }
  else p

def insert (p : ARCCachePolicy κ F) (key : κ) (chunk : ChunkStatus) : ARCCachePolicy κ F :=
  { p with t1 := p.t1.set key chunk, b1 := p.b1.erase key, b2 := p.b2.erase key }

def remove (p : ARCCachePolicy κ F) (key : κ) : ARCCachePolicy κ F :=
  if p.t1.contains key then { p with t1 := p.t1.erase key } else { p with t2 := p.t2.erase key }

def touchOne [TargetSize F] (p : ARCCachePolicy κ F) (key : κ) : ARCCachePolicy κ F :=
  match p.t1.get? key with
  | some chunk =>
    -- a chunk still being stored has not been used twice
    if chunk.isReady then { p with t1 := p.t1.erase key, t2 := p.t2.set key chunk }
    else { p with t1 := (p.t1.erase key).set key chunk }
  | none =>
    if p.t2.contains key then { p with t2 := p.t2.moveToEnd key }
    else if p.b1.contains key then
      let delta : F := max 1 ((p.b2.entries.length : F) / (p.b1.entries.length : F))
      { p with targetT1Size := min (p.targetT1Size + delta) (p.cacheCapacity : F), b1 := p.b1.moveToEnd key }
    else if p.b2.contains key then
      let delta : F := max 1 ((p.b1.entries.length : F) / (p.b2.entries.length : F))
      { p with targetT1Size := max (p.targetT1Size - delta) 0, b2 := p.b2.moveToEnd key }
    else p

def touch [TargetSize F] (p : ARCCachePolicy κ F) (keys : List κ) : ARCCachePolicy κ F := keys.reverse.foldl touchOne p

def clear [TargetSize F] (p : ARCCachePolicy κ F) : ARCCachePolicy κ F := init p.cacheCapacity

/-- `next_candidate`: the next chunk that may be evicted, and the rest of the iterator. -/
def nextCandidate (kept : List κ) : List (κ × ChunkStatus) → Option (κ × ChunkStatus) × List (κ × ChunkStatus)
  | [] => (none, [])
  | e :: entries => if Evictable kept e then (some e, entries) else nextCandidate kept entries

/-- The two iterators of `evict` and the size `t1` would have. -/
structure Scan (κ : Type) where
  virtualT1Size : Int
  t1Iter : List (κ × ChunkStatus)
  t2Iter : List (κ × ChunkStatus)

/-- One round of `evict`: the candidate, and whether it is from `t1`. -/
def nextVictim (target : Int) (kept : List κ) (s : Scan κ) : Option (((κ × ChunkStatus) × Bool) × Scan κ) :=
  let fromT1 := if target ≤ s.virtualT1Size then nextCandidate kept s.t1Iter else (none, s.t1Iter)
  match fromT1 with
  | (some e, t1Iter) => some ((e, true), { s with virtualT1Size := s.virtualT1Size - 1, t1Iter })
  | (none, t1Iter) =>
    match nextCandidate kept s.t2Iter with
    | (some e, t2Iter) => some ((e, false), { s with t1Iter, t2Iter })
    | (none, t2Iter) =>
      match nextCandidate kept t1Iter with
      | (some e, t1Iter) => some ((e, true), { virtualT1Size := s.virtualT1Size - 1, t1Iter, t2Iter })
      | (none, _) => none

def victims (target : Int) (kept : List κ) : Nat → Scan κ → Option (List ((κ × ChunkStatus) × Bool))
  | 0, _ => some []
  | n + 1, s => do
    let (v, s) ← nextVictim target kept s
    let rest ← victims target kept n s
    pure (v :: rest)

def evictOne (p : ARCCachePolicy κ F) (v : (κ × ChunkStatus) × Bool) : ARCCachePolicy κ F :=
  if v.2 then { p with t1 := p.t1.erase v.1.1, b1 := p.b1.set v.1.1 () }
  else { p with t2 := p.t2.erase v.1.1, b2 := p.b2.set v.1.1 () }

def trimGhosts (p : ARCCachePolicy κ F) : ARCCachePolicy κ F :=
  { p with
    b1 := p.b1.dropFirst (p.b1.entries.length - p.cacheCapacity)
    b2 := p.b2.dropFirst (p.b2.entries.length - p.cacheCapacity) }

def evict [TargetSize F] (p : ARCCachePolicy κ F) (n : Nat) (kept : List κ) :
    Option (List (κ × ChunkStatus)) × ARCCachePolicy κ F :=
  if n = 0 then (some [], p)
  else
    match victims (TargetSize.trunc p.targetT1Size) kept n ⟨p.t1.entries.length, p.t1.entries, p.t2.entries⟩ with
    | none => (none, p)
    | some vs => (some (vs.map Prod.fst), (vs.foldl evictOne p).trimGhosts)

instance [TargetSize F] : CachePolicy κ (ARCCachePolicy κ F) where
  init := init
  get := get
  write := write
  insert := insert
  remove p key := .ok (p.remove key)
  touch := touch
  evict p n kept := .ok (p.evict n kept)
  clear := clear

/-! ### Four disjoint maps -/

def allKeys (p : ARCCachePolicy κ F) : List κ := (p.t1.keys ++ p.t2.keys) ++ (p.b1.keys ++ p.b2.keys)

structure Sound (p : ARCCachePolicy κ F) : Prop where
  disjoint : p.allKeys.Nodup
  b1_le : p.b1.entries.length ≤ p.cacheCapacity
  b2_le : p.b2.entries.length ≤ p.cacheCapacity

def held (p : ARCCachePolicy κ F) : List (κ × ChunkStatus) := p.t1.entries ++ p.t2.entries

omit [DecidableEq κ] in
theorem keys_held (p : ARCCachePolicy κ F) : p.held.map Prod.fst = p.t1.keys ++ p.t2.keys :=
  map_append ..

section
variable (h : p.allKeys.Nodup)
include h

omit [DecidableEq κ] in
theorem nodup_held : (p.held.map Prod.fst).Nodup := by
  rw [keys_held]
  exact (nodup_append.1 h).1

omit [DecidableEq κ] in
theorem not_mem_t2 (hk : k ∈ p.t1.keys) : k ∉ p.t2.keys :=
  fun h2 => (nodup_append.1 (nodup_append.1 h).1).2.2 k hk k h2 rfl

theorem get_eq_some : p.get k = some c ↔ (k, c) ∈ p.held := by
  rw [get, held, mem_append, mem_entries, mem_entries, Option.or_eq_some_iff]
  constructor
  · rintro (h1 | ⟨-, h2⟩)
    · exact Or.inl h1
    · exact Or.inr h2
  · rintro (h1 | h2)
    · exact Or.inl h1
    · refine Or.inr ⟨get?_eq_none_iff.2 fun h1 => ?_, h2⟩
      exact not_mem_t2 h h1 (Dict.mem_keys.2 (by simp [h2]))

theorem held_cases (hp : p.held.Perm ((k, c) :: rest)) :
    (p.t1.get? k = some c ∧ ((p.t1.erase k).entries ++ p.t2.entries).Perm rest) ∨
      (p.t1.get? k = none ∧ p.t2.get? k = some c ∧ (p.t1.entries ++ (p.t2.erase k).entries).Perm rest) := by
  have hm : p.get k = some c := (get_eq_some h).2 (hp.mem_iff.2 (mem_cons_self ..))
  rcases Option.or_eq_some_iff.1 hm with h1 | ⟨h1, h2⟩
  · refine Or.inl ⟨h1, ?_⟩
    exact (((entries_erase_perm h1).append_right p.t2.entries).symm.trans hp).cons_inv
  · refine Or.inr ⟨h1, h2, ?_⟩
    have hm : (p.t1.entries ++ p.t2.entries).Perm ((k, c) :: (p.t1.entries ++ (p.t2.erase k).entries)) :=
      ((entries_erase_perm h2).append_left p.t1.entries).trans perm_middle
    exact (hm.symm.trans hp).cons_inv

omit [DecidableEq κ] in
theorem nodup_of_held (hh : (q.held.map Prod.fst).Perm (p.held.map Prod.fst))
    (hb : (q.b1.keys ++ q.b2.keys).Perm (p.b1.keys ++ p.b2.keys)) : q.allKeys.Nodup := by
  have hperm : q.allKeys.Perm p.allKeys := by
    rw [keys_held, keys_held] at hh
    exact hh.append hb
  exact hperm.nodup_iff.2 h

end

theorem write_lawful (h : p.Sound) (c' : ChunkStatus) (hp : p.held.Perm ((k, c) :: rest)) :
    (p.write k c').Sound ∧ (p.write k c').held.Perm ((k, c') :: rest) := by
  have hheld : (p.write k c').held.Perm ((k, c') :: rest) := by
    rcases held_cases h.disjoint hp with ⟨h1, hr⟩ | ⟨h1, h2, hr⟩
    · rw [write, if_pos (by simp [Dict.contains, h1]), held]
      exact ((entries_set_perm p.t1 k c').append_right _).trans (hr.cons _)
    · rw [write, if_neg (by simp [Dict.contains, h1]), if_pos (by simp [Dict.contains, h2]), held]
      exact ((entries_set_perm p.t2 k c').append_left _).trans (perm_middle.trans (hr.cons _))
  have hghosts : (p.write k c').b1 = p.b1 ∧ (p.write k c').b2 = p.b2 ∧
      (p.write k c').cacheCapacity = p.cacheCapacity := by
    unfold write
    split
    · exact ⟨rfl, rfl, rfl⟩
    · split <;> exact ⟨rfl, rfl, rfl⟩
  obtain ⟨hb1, hb2, hcap⟩ := hghosts
  refine ⟨⟨nodup_of_held h.disjoint ?_ (by rw [hb1, hb2]), ?_, ?_⟩, hheld⟩
  · have := (hheld.map Prod.fst).trans (hp.map Prod.fst).symm
    simpa using this
  · rw [hb1, hcap]; exact h.b1_le
  · rw [hb2, hcap]; exact h.b2_le

theorem erase_keys_sublist (d : Dict κ β) (k : κ) : (d.erase k).keys.Sublist d.keys :=
  filter_sublist.map _

theorem length_erase_le (d : Dict κ β) (k : κ) : (d.erase k).entries.length ≤ d.entries.length :=
  length_filter_le _ _

theorem insert_lawful (h : p.Sound) (c : ChunkStatus) (hk : k ∉ p.held.map Prod.fst) :
    (p.insert k c).Sound ∧ (p.insert k c).held.Perm ((k, c) :: p.held) := by
  rw [keys_held, mem_append, not_or] at hk
  have hnone : p.t1.get? k = none := get?_eq_none_iff.2 hk.1
  have hheld : (p.insert k c).held.Perm ((k, c) :: p.held) :=
    (entries_set_perm_of_none hnone c).append_right p.t2.entries
  have hghost : k ∉ (p.b1.erase k).keys ++ (p.b2.erase k).keys := by
    simp [Dict.mem_keys]
  have hsub : ((p.t1.keys ++ p.t2.keys) ++ ((p.b1.erase k).keys ++ (p.b2.erase k).keys)).Sublist p.allKeys :=
    (Sublist.refl _).append ((erase_keys_sublist p.b1 k).append (erase_keys_sublist p.b2 k))
  have hnd : (p.insert k c).allKeys.Nodup := by
    have hperm : (p.insert k c).allKeys.Perm
        (k :: ((p.t1.keys ++ p.t2.keys) ++ ((p.b1.erase k).keys ++ (p.b2.erase k).keys))) := by
      have := hheld.map Prod.fst
      rw [map_cons, keys_held, keys_held] at this
      exact this.append_right _
    refine hperm.nodup_iff.2 (nodup_cons.2 ⟨?_, h.disjoint.sublist hsub⟩)
    rw [mem_append, not_or]
    exact ⟨by simpa using hk, hghost⟩
  exact ⟨⟨hnd, (length_erase_le p.b1 k).trans h.b1_le, (length_erase_le p.b2 k).trans h.b2_le⟩, hheld⟩

theorem remove_lawful (h : p.Sound) (hp : p.held.Perm ((k, c) :: rest)) :
    (p.remove k).Sound ∧ (p.remove k).held.Perm rest := by
  rcases held_cases h.disjoint hp with ⟨h1, hr⟩ | ⟨h1, h2, hr⟩
  · rw [remove, if_pos (by simp [Dict.contains, h1])]
    refine ⟨⟨h.disjoint.sublist ?_, h.b1_le, h.b2_le⟩, hr⟩
    exact ((erase_keys_sublist p.t1 k).append (Sublist.refl _)).append (Sublist.refl _)
  · rw [remove, if_neg (by simp [Dict.contains, h1])]
    refine ⟨⟨h.disjoint.sublist ?_, h.b1_le, h.b2_le⟩, hr⟩
    exact ((Sublist.refl _).append (erase_keys_sublist p.t2 k)).append (Sublist.refl _)

/-! ### Touching -/

theorem keys_moveToEnd_perm (d : Dict κ β) (k : κ) : (d.moveToEnd k).keys.Perm d.keys :=
  (entries_moveToEnd d k).map Prod.fst

theorem touchOne_lawful [TargetSize F] (h : p.Sound) (k : κ) :
    (p.touchOne k).Sound ∧ (p.touchOne k).held.Perm p.held := by
  unfold touchOne
  split
  · next c hc =>
    have hold : p.held.Perm ((k, c) :: ((p.t1.erase k).entries ++ p.t2.entries)) :=
      (entries_erase_perm hc).append_right _
    split
    · have h2 : p.t2.get? k = none := get?_eq_none_iff.2 (not_mem_t2 h.disjoint (Dict.mem_keys.2 (by simp [hc])))
      have hnew : ((p.t1.erase k).entries ++ (p.t2.set k c).entries).Perm p.held :=
        (((entries_set_perm_of_none h2 c).append_left _).trans perm_middle).trans hold.symm
      exact ⟨⟨nodup_of_held h.disjoint (hnew.map Prod.fst) (Perm.refl _), h.b1_le, h.b2_le⟩, hnew⟩
    · have h1 : (p.t1.erase k).get? k = none := by simp
      have hnew : (((p.t1.erase k).set k c).entries ++ p.t2.entries).Perm p.held :=
        ((entries_set_perm_of_none h1 c).append_right _).trans hold.symm
      exact ⟨⟨nodup_of_held h.disjoint (hnew.map Prod.fst) (Perm.refl _), h.b1_le, h.b2_le⟩, hnew⟩
  · split
    · have hnew : (p.t1.entries ++ (p.t2.moveToEnd k).entries).Perm p.held :=
        (entries_moveToEnd p.t2 k).append_left _
      exact ⟨⟨nodup_of_held h.disjoint (hnew.map Prod.fst) (Perm.refl _), h.b1_le, h.b2_le⟩, hnew⟩
    · split
      · refine ⟨⟨nodup_of_held h.disjoint (Perm.refl _) ?_, ?_, h.b2_le⟩, Perm.refl _⟩
        · exact (keys_moveToEnd_perm p.b1 k).append_right _
        · exact (entries_moveToEnd p.b1 k).length_eq.trans_le h.b1_le
      · split
        · refine ⟨⟨nodup_of_held h.disjoint (Perm.refl _) ?_, h.b1_le, ?_⟩, Perm.refl _⟩
          · exact (keys_moveToEnd_perm p.b2 k).append_left _
          · exact (entries_moveToEnd p.b2 k).length_eq.trans_le h.b2_le
        · exact ⟨h, Perm.refl _⟩

theorem touch_lawful [TargetSize F] (h : p.Sound) (keys : List κ) :
    (p.touch keys).Sound ∧ (p.touch keys).held.Perm p.held := by
  unfold touch
  induction keys.reverse generalizing p with
  | nil => exact ⟨h, Perm.refl _⟩
  | cons k l ih =>
    obtain ⟨hs, hp⟩ := touchOne_lawful h k
    obtain ⟨hs', hp'⟩ := ih hs
    exact ⟨hs', hp'.trans hp⟩

/-! ### Choosing the victims -/

theorem nextCandidate_spec (kept : List κ) (l : List (κ × ChunkStatus)) :
    (∃ e rest, nextCandidate kept l = (some e, rest) ∧
        l.filter (Evictable kept) = e :: rest.filter (Evictable kept)) ∨
      (nextCandidate kept l = (none, []) ∧ l.filter (Evictable kept) = []) := by
  induction l with
  | nil => exact Or.inr ⟨rfl, rfl⟩
  | cons a l ih =>
    by_cases ha : Evictable kept a = true
    · exact Or.inl ⟨a, l, by rw [nextCandidate, if_pos ha], filter_cons_of_pos ha⟩
    · rw [nextCandidate, if_neg ha, filter_cons_of_neg ha]
      exact ih

def Scan.left (s : Scan κ) (kept : List κ) (fromT1 : Bool) : List (κ × ChunkStatus) :=
  (if fromT1 then s.t1Iter else s.t2Iter).filter (Evictable kept)

/-- A round takes the next candidate of one of the two maps, and fails only if neither has one. -/
theorem nextVictim_spec (target : Int) (kept : List κ) (s : Scan κ) :
    (∃ e b s', nextVictim target kept s = some ((e, b), s') ∧
        s.left kept b = e :: s'.left kept b ∧ s.left kept (!b) = s'.left kept (!b)) ∨
      (nextVictim target kept s = none ∧ ∀ b, s.left kept b = []) := by
  have h2 := nextCandidate_spec kept s.t2Iter
  unfold nextVictim
  split
  · rcases nextCandidate_spec kept s.t1Iter with ⟨e, rest, h1, hf⟩ | ⟨h1, hf⟩
    · simp only [h1]
      exact Or.inl ⟨e, true, _, rfl, hf, rfl⟩
    · simp only [h1]
      rcases h2 with ⟨e, rest, h2, hg⟩ | ⟨h2, hg⟩
      · simp only [h2]
        exact Or.inl ⟨e, false, _, rfl, hg, hf⟩
      · simp only [h2, nextCandidate]
        refine Or.inr ⟨trivial, fun b => ?_⟩
        cases b
        · exact hg
        · exact hf
  · rcases h2 with ⟨e, rest, h2, hg⟩ | ⟨h2, hg⟩
    · simp only [h2]
      exact Or.inl ⟨e, false, _, rfl, hg, rfl⟩
    · simp only [h2]
      rcases nextCandidate_spec kept s.t1Iter with ⟨e, rest, h1, hf⟩ | ⟨h1, hf⟩
      · simp only [h1]
        exact Or.inl ⟨e, true, _, rfl, hf, hg⟩
      · simp only [h1]
        refine Or.inr ⟨trivial, fun b => ?_⟩
        cases b
        · exact hg
        · exact hf

def takenFrom (vs : List ((κ × ChunkStatus) × Bool)) (fromT1 : Bool) : List (κ × ChunkStatus) :=
  (vs.filter fun v => v.2 == fromT1).map Prod.fst

omit [DecidableEq κ] in
theorem takenFrom_cons (e : κ × ChunkStatus) (b : Bool) (vs : List ((κ × ChunkStatus) × Bool)) (b' : Bool) :
    takenFrom ((e, b) :: vs) b' = if b = b' then e :: takenFrom vs b' else takenFrom vs b' := by
  unfold takenFrom
  by_cases h : b = b' <;> simp [h]

theorem victims_spec (target : Int) (kept : List κ) (n : Nat) (s : Scan κ) :
    if n ≤ (s.left kept true).length + (s.left kept false).length then
      ∃ vs, victims target kept n s = some vs ∧ vs.length = n ∧ ∀ b, (takenFrom vs b).Sublist (s.left kept b)
    else victims target kept n s = none := by
  induction n generalizing s with
  | zero => simp [victims, takenFrom]
  | succ n ih =>
    rcases nextVictim_spec target kept s with ⟨e, b, s', hv, hb, hnb⟩ | ⟨hv, hnone⟩
    · have hsum : (s.left kept true).length + (s.left kept false).length =
          (s'.left kept true).length + (s'.left kept false).length + 1 := by
        cases b
        · simp only [Bool.not_false] at hnb
          rw [hb, hnb, length_cons]; omega
        · simp only [Bool.not_true] at hnb
          rw [hb, hnb, length_cons]; omega
      have ih := ih s'
      rw [victims, hv]
      split
      · rw [if_pos (by omega)] at ih
        obtain ⟨vs, hvs, hlen, hsub⟩ := ih
        refine ⟨(e, b) :: vs, by simp [hvs], by simp [hlen], fun b' => ?_⟩
        rw [takenFrom_cons]
        split
        · next h => rw [← h, hb]; exact (hsub b).cons_cons e
        · next h =>
          have : b' = !b := by cases b <;> cases b' <;> simp_all
          rw [this, hnb]
          exact hsub (!b)
      · rw [if_neg (by omega)] at ih
        simp [ih]
    · rw [victims, hv, hnone, hnone, if_neg (by simp)]
      rfl

/-! ### Applying the evictions -/

theorem evictOne_step (h : p.allKeys.Nodup) {e : κ × ChunkStatus} {b : Bool}
    (he : e ∈ (if b then p.t1 else p.t2).entries) :
    (p.evictOne (e, b)).allKeys.Nodup ∧ p.held.Perm (e :: (p.evictOne (e, b)).held) ∧
      ∀ b' : Bool, ∀ a ∈ (if b' then p.t1 else p.t2).entries, a.1 ≠ e.1 →
        a ∈ (if b' then (p.evictOne (e, b)).t1 else (p.evictOne (e, b)).t2).entries := by
  obtain ⟨k, c⟩ := e
  obtain ⟨hnt, -, hdis⟩ := nodup_append.1 h
  have hheldKey : k ∈ p.t1.keys ++ p.t2.keys := by
    cases b
    · exact mem_append_right _ (mem_map_of_mem he)
    · exact mem_append_left _ (mem_map_of_mem he)
  have hb1 : p.b1.get? k = none :=
    get?_eq_none_iff.2 fun hm => hdis k hheldKey k (mem_append_left _ hm) rfl
  have hb2 : p.b2.get? k = none :=
    get?_eq_none_iff.2 fun hm => hdis k hheldKey k (mem_append_right _ hm) rfl
  have hheld : p.held.Perm ((k, c) :: (p.evictOne ((k, c), b)).held) := by
    cases b
    · exact ((entries_erase_perm (mem_entries.1 he)).append_left _).trans perm_middle
    · exact (entries_erase_perm (mem_entries.1 he)).append_right _
  refine ⟨?_, hheld, ?_⟩
  · have hghost : ((p.evictOne ((k, c), b)).b1.keys ++ (p.evictOne ((k, c), b)).b2.keys).Perm
        (k :: (p.b1.keys ++ p.b2.keys)) := by
      cases b
      · exact (((entries_set_perm_of_none hb2 ()).map Prod.fst).append_left p.b1.keys).trans perm_middle
      · exact ((entries_set_perm_of_none hb1 ()).map Prod.fst).append_right p.b2.keys
    have hheldK : (p.t1.keys ++ p.t2.keys).Perm
        (k :: ((p.evictOne ((k, c), b)).t1.keys ++ (p.evictOne ((k, c), b)).t2.keys)) := by
      have := hheld.map Prod.fst
      rwa [map_cons, keys_held, keys_held] at this
    have hperm : (p.evictOne ((k, c), b)).allKeys.Perm p.allKeys := by
      refine (hghost.append_left _).trans (perm_middle.trans ?_)
      exact (hheldK.append_right _).symm
    exact hperm.nodup_iff.2 h
  · rintro b' ⟨a, w⟩ ha hne
    rw [mem_entries] at ha ⊢
    cases b <;> cases b' <;> simp_all [evictOne]

theorem foldl_evictOne {vs : List ((κ × ChunkStatus) × Bool)} (h : p.allKeys.Nodup)
    (hvs : ∀ v ∈ vs, v.1 ∈ (if v.2 then p.t1 else p.t2).entries) (hnd : (vs.map fun v => v.1.1).Nodup) :
    (vs.foldl evictOne p).allKeys.Nodup ∧ p.held.Perm (vs.map Prod.fst ++ (vs.foldl evictOne p).held) := by
  induction vs generalizing p with
  | nil => exact ⟨h, Perm.refl _⟩
  | cons v vs ih =>
    rw [map_cons, nodup_cons] at hnd
    obtain ⟨hkeys, hheld, hkeep⟩ := evictOne_step h (hvs v (mem_cons_self ..))
    have hrest : ∀ w ∈ vs, w.1 ∈ (if w.2 then (p.evictOne v).t1 else (p.evictOne v).t2).entries := by
      intro w hw
      refine hkeep w.2 w.1 (hvs w (mem_cons_of_mem _ hw)) fun heq => hnd.1 ?_
      exact mem_map.2 ⟨w, hw, heq⟩
    obtain ⟨hkeys', hheld'⟩ := ih hkeys hrest hnd.2
    exact ⟨hkeys', hheld.trans (hheld'.cons _)⟩

omit [DecidableEq κ] in
theorem map_fst_perm_takenFrom (vs : List ((κ × ChunkStatus) × Bool)) :
    (vs.map Prod.fst).Perm (takenFrom vs true ++ takenFrom vs false) := by
  induction vs with
  | nil => simp [takenFrom]
  | cons v vs ih =>
    obtain ⟨e, b⟩ := v
    rw [map_cons, takenFrom_cons, takenFrom_cons]
    cases b
    · simpa using (ih.cons e).trans perm_middle.symm
    · simpa using ih.cons e

omit [DecidableEq κ] in
theorem trimGhosts_sound (h : p.allKeys.Nodup) : p.trimGhosts.Sound where
  disjoint := h.sublist ((Sublist.refl _).append
    (((drop_sublist _ _).map _).append ((drop_sublist _ _).map _)))
  b1_le := by
    have := length_dropFirst p.b1 (p.b1.entries.length - p.cacheCapacity)
    simp only [trimGhosts]
    omega
  b2_le := by
    have := length_dropFirst p.b2 (p.b2.entries.length - p.cacheCapacity)
    simp only [trimGhosts]
    omega

theorem evict_lawful [TargetSize F] (h : p.Sound) (n : Nat) (kept : List κ) : if n ≤ p.held.countP (Evictable kept) then
      ∃ vs q, p.evict n kept = (some vs, q) ∧ vs.length = n ∧ (∀ e ∈ vs, Evictable kept e) ∧
        q.Sound ∧ p.held.Perm (vs ++ q.held) else p.evict n kept = (none, p) := by
  have hspec := victims_spec (TargetSize.trunc p.targetT1Size) kept n
    ⟨p.t1.entries.length, p.t1.entries, p.t2.entries⟩
  have hcount : p.held.countP (Evictable kept) =
      (p.t1.entries.filter (Evictable kept)).length + (p.t2.entries.filter (Evictable kept)).length := by
    rw [held, countP_append, countP_eq_length_filter, countP_eq_length_filter]
  unfold evict
  by_cases hn : n = 0
  · subst hn
    simp only [Nat.zero_le, if_true]
    exact ⟨[], p, rfl, rfl, by simp, h, Perm.refl _⟩
  simp only [hn, if_false]
  rw [hcount]
  split
  · next hle =>
    rw [if_pos (by simpa [Scan.left] using hle)] at hspec
    obtain ⟨vs, hvs, hlen, hsub⟩ := hspec
    simp only [hvs]
    have hmem : ∀ e b, e ∈ takenFrom vs b → e ∈ (if b then p.t1 else p.t2).entries ∧ Evictable kept e := by
      intro e b he
      have := mem_filter.1 ((hsub b).mem he)
      cases b <;> exact this
    have htaken : ∀ v ∈ vs, v.1 ∈ takenFrom vs v.2 := fun v hv =>
      mem_map_of_mem (mem_filter.2 ⟨hv, by simp⟩)
    have hkeys : (vs.map fun v => v.1.1).Nodup := by
      have hperm := (map_fst_perm_takenFrom vs).map Prod.fst
      rw [map_map] at hperm
      have hs : (takenFrom vs true ++ takenFrom vs false).Sublist p.held :=
        ((hsub true).trans filter_sublist).append ((hsub false).trans filter_sublist)
      exact hperm.nodup_iff.2 ((nodup_held h.disjoint).sublist (hs.map _))
    obtain ⟨hnd, hheld⟩ := foldl_evictOne h.disjoint (fun v hv => (hmem _ _ (htaken v hv)).1) hkeys
    refine ⟨_, _, rfl, by simpa using hlen, ?_, trimGhosts_sound hnd, hheld⟩
    intro e he
    obtain ⟨v, hv, rfl⟩ := mem_map.1 he
    exact (hmem _ _ (htaken v hv)).2
  · next hle =>
    rw [if_neg (by simpa [Scan.left] using hle)] at hspec
    simp only [hspec]

/-! ### The laws -/

omit [DecidableEq κ] in
theorem sound_init [TargetSize F] (n : Nat) : (init n : ARCCachePolicy κ F).Sound :=
  ⟨nodup_nil, Nat.zero_le _, Nat.zero_le _⟩

instance [TargetSize F] : LawfulCachePolicy κ (ARCCachePolicy κ F) where
  Sound := Sound
  chunks := held
  nodup h := nodup_held h.disjoint
  get_eq_some h := get_eq_some h.disjoint
  sound_init := sound_init
  chunks_init _ := rfl
  sound_clear {p} _ := sound_init p.cacheCapacity
  chunks_clear _ := rfl
  write_busy h hp _ _ := write_lawful h _ hp
  write_pinned h hp _ _ := ⟨_, rfl, write_lawful h _ hp⟩
  write_idle h hp _ _ := write_lawful h _ hp
  insert_new h hk _ := insert_lawful h _ hk
  remove_held h hp := ⟨_, rfl, remove_lawful h hp⟩
  touch_perm ks h := touch_lawful h ks
  evict_spec {p} n kept h := by
    have := evict_lawful h n kept
    split at this
    · next hn =>
      obtain ⟨vs, q, he, hrest⟩ := this
      rw [if_pos hn]
      exact ⟨vs, q, congrArg Except.ok he, hrest⟩
    · next hn =>
      rw [if_neg hn]
      exact congrArg Except.ok this

end ARCCachePolicy

end VllmCore.KvOffload
