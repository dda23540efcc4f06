import Mathlib

/-! # The n-gram proposer

`_find_longest_matched_ngram_and_propose_tokens` looks for the longest suffix of the tokens that occurs before, and
proposes what follows its earliest occurrence. It is a Knuth–Morris–Pratt scan of the reversed tokens, with a table for
the first `max_ngram` prefixes only. -/

namespace VllmCore
open List

variable {α : Type} {t tokens : List α} {M b n p u v i : Nat}

def Border (t : List α) (u i : Nat) : Prop := t.take u <:+ t.take i

theorem Border.of_le (hu : Border t u i) (hv : Border t v i) (h : u ≤ v) : Border t u v :=
  suffix_of_suffix_length_le hu hv (by simp only [length_take]; omega)

theorem border_succ (hi : i < t.length) (hv : v ≤ i) : Border t (v + 1) (i + 1) ↔ Border t v i ∧ t[v]? = t[i]? := by
  have hv := Nat.lt_of_le_of_lt hv hi
  unfold Border
  rw [take_succ_eq_append_getElem hv, take_succ_eq_append_getElem hi, getElem?_eq_getElem hi, getElem?_eq_getElem hv,
    ← reverse_prefix, reverse_append, reverse_append, ← reverse_prefix]
  simp [cons_prefix_cons, and_comm]

/-- The lengths up to `M` of the prefixes that end again at index `i`. -/
def endsAt (t : List α) (M i : Nat) : Set Nat := {v | v ≤ M ∧ v ≤ i ∧ Border t v (i + 1)}

/-- The table entry for a border is the next shorter one. -/
theorem Border.next (hb : Border t b i) (hpos : 0 < b) (hv : IsGreatest (endsAt t M (b - 1)) v) :
    v < b ∧ Border t v i ∧ ∀ w < b, w < M → Border t w i → w ≤ v := by
  obtain ⟨⟨-, hlt, hbor⟩, hle⟩ := hv
  rw [Nat.sub_add_cancel hpos] at hbor
  refine ⟨by omega, hbor.trans hb, fun w hw hwM hwi => hle ⟨hwM.le, by omega, ?_⟩⟩
  rw [Nat.sub_add_cancel hpos]
  exact hwi.of_le hb hw.le

structure NgramScan where
  i : Nat := 1
  prevLps : Nat := 0
  lps : Nat → Nat := fun _ => 0
  longestNgram : Nat := 0
  position : Nat := 0

namespace NgramScan

def step [DecidableEq α] (tokens : List α) (maxNgram : Nat) (s : NgramScan) : NgramScan :=
  if tokens[s.prevLps]? = tokens[s.i]? then
    let prevLps := s.prevLps + 1
    let lps := fun j => if j = s.i ∧ s.i < maxNgram then prevLps else s.lps j
    { i := s.i + 1
      prevLps := if prevLps = maxNgram then lps (maxNgram - 1) else prevLps
      lps := lps
      longestNgram := if prevLps ≥ s.longestNgram then prevLps else s.longestNgram
      position := if prevLps ≥ s.longestNgram then s.i else s.position }
  else if s.prevLps ≠ 0 then { s with prevLps := s.lps (s.prevLps - 1) }
  else { s with i := s.i + 1 }

def run [DecidableEq α] (tokens : List α) (maxNgram : Nat) : Nat → NgramScan → NgramScan
  | 0, s => s
  | fuel + 1, s => if s.i < tokens.length then run tokens maxNgram fuel (s.step tokens maxNgram) else s

/-- Between two rounds `prev_lps` is a border that may be continued, and no longer one can be; the table is right as far
as it is filled; and the longest match so far is known, the last one of its length. -/
structure Inv (t : List α) (M : Nat) (s : NgramScan) : Prop where
  le : s.i ≤ t.length
  prev_lt : s.prevLps < s.i
  prev_lt_max : s.prevLps < M
  prev : Border t s.prevLps s.i
  refuted : ∀ v, s.prevLps < v → v < s.i → v < M → Border t v s.i → t[v]? ≠ t[s.i]?
  table : ∀ j < s.i, j < M → IsGreatest (endsAt t M j) (s.lps j)
  blank : ∀ j, s.i ≤ j → s.lps j = 0
  found : s.longestNgram = 0 ∨ s.longestNgram ∈ endsAt t M s.position ∧ s.position < s.i
  best : ∀ j < s.i, ∀ v ∈ endsAt t M j, 0 < v → v < s.longestNgram ∨ v = s.longestNgram ∧ j ≤ s.position

theorem init_inv (ht : t ≠ []) (hM : 0 < M) : Inv t M {} where
  le := length_pos_iff.2 ht
  prev_lt := Nat.one_pos
  prev_lt_max := hM
  prev := nil_suffix
  refuted _ h1 h2 := absurd h2 (Nat.not_lt.2 h1)
  table _ hj _ := ⟨⟨Nat.zero_le _, Nat.zero_le _, nil_suffix⟩, fun _ hv => hv.2.1.trans (Nat.le_of_lt_succ hj)⟩
  blank _ _ := rfl
  found := .inl rfl
  best _ hj _ hv h := absurd (h.trans_le hv.2.1) (Nat.not_lt.2 (Nat.le_of_lt_succ hj))

variable {s s' : NgramScan}

/-- The next index, once the longest border `b` that ends there is known. -/
theorem Inv.advance (h : Inv t M s) (hi : s.i < t.length) (hb : IsGreatest (endsAt t M s.i) b) (hi' : s'.i = s.i + 1)
    (hlps : ∀ j, s'.lps j = if j = s.i ∧ s.i < M then b else s.lps j)
    (hprev : s'.prevLps = if b = M then s'.lps (M - 1) else b)
    (hbest : if 0 < b ∧ s.longestNgram ≤ b then s'.longestNgram = b ∧ s'.position = s.i
      else s'.longestNgram = s.longestNgram ∧ s'.position = s.position) : Inv t M s' := by
  obtain ⟨⟨hbM, hbi, hborder⟩, hmax⟩ := id hb
  have hM := h.prev_lt_max
  have htable : ∀ j < s.i + 1, j < M → IsGreatest (endsAt t M j) (s'.lps j) := by
    intro j hj hjM
    rw [hlps]
    split
    · next hji => exact hji.1 ▸ hb
    · exact h.table j (by omega) hjM
  have hnext : s'.prevLps < M ∧ s'.prevLps ≤ b ∧ Border t s'.prevLps (s.i + 1) ∧
      ∀ v, s'.prevLps < v → v < s.i + 1 → v < M → ¬ Border t v (s.i + 1) := by
    rw [hprev]
    split
    · next hfull =>
      -- at the cap the next candidate is the longest border of the capped prefix
      subst hfull
      obtain ⟨hlt, hbor, hle⟩ := hborder.next (by omega) (htable (b - 1) (by omega) (by omega))
      exact ⟨hlt, hlt.le, hbor, fun v hv _ hvb hvi => Nat.not_lt.2 (hle v hvb hvb hvi) hv⟩
    · exact ⟨by omega, Nat.le_refl b, hborder, fun v hv hvi hvM hvb => absurd (hmax ⟨hvM.le, by omega, hvb⟩) (by omega)⟩
  obtain ⟨hltM, hleb, hbor, hnone⟩ := hnext
  refine ⟨by omega, by omega, hltM, hi' ▸ hbor, fun v h1 h2 h3 h4 => ?_, hi' ▸ htable, fun j hj => ?_, ?_,
    fun j hj v hv hpos => ?_⟩
  · rw [hi'] at h2 h4
    exact absurd h4 (hnone v h1 h2 h3)
  · rw [hlps, if_neg (by omega)]
    exact h.blank j (by omega)
  · split at hbest
    · rw [hbest.1, hbest.2]
      exact .inr ⟨hb.1, by omega⟩
    · rw [hbest.1, hbest.2]
      exact h.found.imp_right fun hf => ⟨hf.1, by omega⟩
  · -- a match that ends at the new index is not longer than `b`
    rcases Nat.lt_or_ge j s.i with hlt | hge
    · have := h.best j hlt v hv hpos
      split at hbest <;> omega
    · obtain rfl : j = s.i := by omega
      have := hmax hv
      split at hbest <;> omega

variable [DecidableEq α]

/-- A round keeps the invariant, and the scan comes closer to its end. -/
theorem Inv.step (h : Inv t M s) (hi : s.i < t.length) : Inv t M (s.step t M) ∧
    2 * (t.length - (s.step t M).i) + (s.step t M).prevLps < 2 * (t.length - s.i) + s.prevLps := by
  have hprev := h.prev_lt
  have hM := h.prev_lt_max
  -- a border that ends at the new index continues one that has not been refuted
  have hcont : ∀ w ∈ endsAt t M s.i, 0 < w → w - 1 ≤ s.prevLps ∧ t[w - 1]? = t[s.i]? := by
    rintro w ⟨hwM, hwi, hw⟩ hpos
    obtain ⟨v, rfl⟩ := Nat.exists_eq_succ_of_ne_zero hpos.ne'
    obtain ⟨hbor, heq⟩ := (border_succ hi (Nat.le_of_succ_le hwi)).1 hw
    exact ⟨Nat.le_of_not_lt fun hlong => h.refuted v hlong hwi hwM hbor heq, heq⟩
  unfold NgramScan.step
  split
  · next heq =>
    suffices hadv : Inv t M _ from ⟨hadv, by have := hadv.prev_lt_max; dsimp only at this ⊢; split at this <;> grind⟩
    refine h.advance hi ⟨⟨hM, hprev, (border_succ hi hprev.le).2 ⟨h.prev, heq⟩⟩, fun w hw => ?_⟩
      rfl (fun j => rfl) rfl ?_
    · have := hcont w hw
      omega
    · split
      · next hc => exact ⟨if_pos hc.2, if_pos hc.2⟩
      · exact ⟨if_neg (by omega), if_neg (by omega)⟩
  · next hne =>
    split
    · next hpos =>
      obtain ⟨hlt, hbor, hle⟩ := h.prev.next (by omega) (h.table (s.prevLps - 1) (by omega) (by omega))
      refine ⟨{ h with
        prev_lt := hlt.trans hprev, prev_lt_max := hlt.trans hM, prev := hbor
        refuted := fun v hv hvi hvM hvb heq => ?_ }, by dsimp only; omega⟩
      rcases Nat.lt_trichotomy v s.prevLps with hlt' | rfl | hgt
      · exact Nat.not_lt.2 (hle v hlt' hvM hvb) hv
      · exact hne heq
      · exact h.refuted v hgt hvi hvM hvb heq
    · next hzero =>
      have hnone : IsGreatest (endsAt t M s.i) 0 := by
        refine ⟨⟨Nat.zero_le _, Nat.zero_le _, nil_suffix⟩, fun w hw => Nat.le_of_not_lt fun hpos => hne ?_⟩
        obtain ⟨hle, heq⟩ := hcont w hw hpos
        rwa [show w - 1 = s.prevLps by omega] at heq
      refine ⟨h.advance hi hnone rfl (fun j => ?_) ?_ ?_, by dsimp only; omega⟩
      · dsimp only
        split
        · next hj => rw [hj.1, h.blank _ (Nat.le_refl _)]
        · rfl
      · rw [if_neg (by omega)]
        exact not_ne_iff.1 hzero
      · rw [if_neg (by omega)]
        exact ⟨rfl, rfl⟩

theorem Inv.run (h : Inv t M s) (fuel : Nat) (hfuel : 2 * (t.length - s.i) + s.prevLps ≤ fuel) :
    Inv t M (s.run t M fuel) ∧ (s.run t M fuel).i = t.length := by
  induction fuel generalizing s with
  | zero => exact ⟨h, by have := h.le; rw [NgramScan.run]; omega⟩
  | succ fuel ih =>
    rw [NgramScan.run]
    split
    · next hi =>
      obtain ⟨hinv, hlt⟩ := h.step hi
      exact ih hinv (by omega)
    · next hi => exact ⟨h, Nat.le_antisymm h.le (Nat.not_lt.1 hi)⟩

end NgramScan

def findLongestMatchedNgramAndProposeTokens [DecidableEq α] (originTokens : List α) (minNgram maxNgram : Nat)
    (maxModelLen k : Int) : List α :=
  let totalToken := originTokens.length
  let k := min k (maxModelLen - totalToken)
  if totalToken < minNgram ∨ k ≤ 0 then []
  else
    let s := NgramScan.run originTokens.reverse maxNgram (2 * totalToken) {}
    if s.longestNgram < minNgram then []
    else
      let startPosition := totalToken - 1 - s.position + s.longestNgram
      (originTokens.drop startPosition).take (min k.toNat (totalToken - startPosition))

/-- The suffix of length `n` occurs from `p` on, and ends before the last token. -/
def Occurs (tokens : List α) (n p : Nat) : Prop :=
  p + n < tokens.length ∧ tokens.drop (tokens.length - n) <+: tokens.drop p

theorem mem_endsAt_reverse (hi : i < tokens.length) :
    n ∈ endsAt tokens.reverse M i ↔ n ≤ M ∧ Occurs tokens n (tokens.length - 1 - i) := by
  have hborder : Border tokens.reverse n (i + 1) ↔
      tokens.drop (tokens.length - n) <+: tokens.drop (tokens.length - 1 - i) := by
    unfold Border
    rw [take_reverse, take_reverse, reverse_suffix, Nat.sub_sub, Nat.add_comm 1 i]
  rw [Occurs, ← hborder]
  exact and_congr_right fun _ => and_congr_left fun _ => by omega

/-- The proposal continues the earliest occurrence of the longest suffix that occurs before. -/
theorem ngram_proposal [DecidableEq α] (tokens : List α) {minNgram maxNgram : Nat} (hmin : 1 ≤ minNgram)
    (hle : minNgram ≤ maxNgram) (maxModelLen k : Int) :
    let room := min k (maxModelLen - tokens.length)
    let draft := findLongestMatchedNgramAndProposeTokens tokens minNgram maxNgram maxModelLen k
    ((∀ n p, minNgram ≤ n → n ≤ maxNgram → ¬ Occurs tokens n p) ∨ room ≤ 0 → draft = []) ∧
      ∀ n p, 0 < room → IsGreatest {n | minNgram ≤ n ∧ n ≤ maxNgram ∧ ∃ p, Occurs tokens n p} n →
        IsLeast {p | Occurs tokens n p} p →
        draft = (tokens.drop (p + n)).take (min room (tokens.length - p - n)).toNat := by
  intro room draft
  by_cases hshort : tokens.length < minNgram ∨ room ≤ 0
  · refine ⟨fun _ => if_pos hshort, fun n p hk hn hp => ?_⟩
    have := hp.1.1
    have := hn.1.1
    omega
  · have hne : tokens.reverse ≠ [] := fun h => hshort (.inl (by rw [reverse_eq_nil_iff.1 h]; exact hmin))
    have hfuel : 2 * (tokens.reverse.length - 1) ≤ 2 * tokens.length := by rw [length_reverse]; omega
    obtain ⟨hinv, hend⟩ := (NgramScan.init_inv hne (hmin.trans hle)).run _ hfuel
    have hdraft : draft = _ := if_neg hshort
    dsimp only at hdraft
    generalize NgramScan.run tokens.reverse maxNgram (2 * tokens.length) {} = s at hinv hend hdraft
    rw [length_reverse] at hend
    -- the matches of the scan are the occurrences
    have hfound : s.longestNgram = 0 ∨ (s.longestNgram ≤ maxNgram ∧
        Occurs tokens s.longestNgram (tokens.length - 1 - s.position)) ∧ s.position < tokens.length :=
      hinv.found.imp_right fun h => ⟨(mem_endsAt_reverse (hend ▸ h.2)).1 h.1, hend ▸ h.2⟩
    have hbest : ∀ n p, 0 < n → n ≤ maxNgram → Occurs tokens n p →
        n < s.longestNgram ∨ n = s.longestNgram ∧ tokens.length - 1 - p ≤ s.position := by
      intro n p hn hM h
      have hp := h.1
      refine hinv.best _ (by omega) n ((mem_endsAt_reverse (by omega)).2 ⟨hM, ?_⟩) hn
      rwa [show tokens.length - 1 - (tokens.length - 1 - p) = p by omega]
    refine ⟨fun h => ?_, fun n p hk hn hp => ?_⟩
    · rw [hdraft]
      refine if_pos (Nat.lt_of_not_le fun hlong => ?_)
      rcases hfound with h0 | ⟨⟨hM, hocc⟩, -⟩
      · omega
      · exact (h.resolve_right fun h => hshort (.inr h)) _ _ hlong hM hocc
    · have h1 := hbest n p (hmin.trans hn.1.1) hn.1.2.1 hp.1
      have hpos := hn.1.1
      rcases hfound with h0 | ⟨⟨hM, hocc⟩, hpos⟩
      · omega
      · have h2 : s.longestNgram ≤ n := hn.2 ⟨by omega, hM, _, hocc⟩
        obtain rfl : n = s.longestNgram := by omega
        have h3 : p ≤ tokens.length - 1 - s.position := hp.2 hocc
        have h4 := hp.1.1
        rw [hdraft, if_neg (by omega), show tokens.length - 1 - s.position = p by omega]
        congr 1
        omega

theorem ngram_proposal_repeated : findLongestMatchedNgramAndProposeTokens [1, 2, 3, 1, 2] 1 2 9 2 = [3, 1] :=
  (ngram_proposal [1, 2, 3, 1, 2] (by decide) (by decide) 9 2).2 2 0 (by decide)
    ⟨⟨by decide, by decide, 0, by decide, by decide⟩, fun _ h => h.2.1⟩ ⟨⟨by decide, by decide⟩,
      fun _ _ => Nat.zero_le _⟩

end VllmCore
